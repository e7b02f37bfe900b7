import HcsCoin.Uint256

/-!
# Consensus parameters

The fields of `Consensus::Params` that proof of work, block checks, the subsidy
and the block index read, and their values on the five networks of
`kernel/chainparams.cpp`.
-/

namespace HcsCoin

structure Params where
  powLimit : Uint256
  quantumPowLimit : Uint256
  nQuantumQubits : Nat
  nPowTargetTimespan : Nat
  nPowTargetSpacing : Nat
  fPowAllowMinDifficultyBlocks : Bool
  enforceBIP94 : Bool
  fPowNoRetargeting : Bool
  signetBlocks : Bool
  nSubsidyHalvingInterval : Nat

def Params.difficultyAdjustmentInterval (params : Params) : Nat :=
  params.nPowTargetTimespan / params.nPowTargetSpacing

inductive Network where
  | main
  | testnet
  | testnet4
  | signet
  | regtest
  deriving DecidableEq

/-- Regtest with its default options, in particular without BIP94. -/
def consensusParams : Network → Params
  | .main =>
    { powLimit := .ofHex 0x00000fffffffffffffffffffffffffffffffffffffffffffffffffffffffffff
      quantumPowLimit := .ofHex 0x0fffffffffffffffffffffffffffffffffffffffffffffffffffffffffffffff
      nQuantumQubits := 27
      nPowTargetTimespan := 14 * 24 * 60 * 60
      nPowTargetSpacing := 10 * 60
      fPowAllowMinDifficultyBlocks := false
      enforceBIP94 := false
      fPowNoRetargeting := false
      signetBlocks := false
      nSubsidyHalvingInterval := 840000 }
  | .testnet =>
    { powLimit := .ofHex 0x00000fffffffffffffffffffffffffffffffffffffffffffffffffffffffffff
      quantumPowLimit := .ofHex 0x7fffffffffffffffffffffffffffffffffffffffffffffffffffffffffffffff
      nQuantumQubits := 27
      nPowTargetTimespan := 14 * 24 * 60 * 60
      nPowTargetSpacing := 10 * 60
      fPowAllowMinDifficultyBlocks := true
      enforceBIP94 := false
      fPowNoRetargeting := false
      signetBlocks := false
      nSubsidyHalvingInterval := 840000 }
  | .testnet4 =>
    { powLimit := .ofHex 0x00000fffffffffffffffffffffffffffffffffffffffffffffffffffffffffff
      quantumPowLimit := .ofHex 0x7fffffffffffffffffffffffffffffffffffffffffffffffffffffffffffffff
      nQuantumQubits := 27
      nPowTargetTimespan := 14 * 24 * 60 * 60
      nPowTargetSpacing := 10 * 60
      fPowAllowMinDifficultyBlocks := true
      enforceBIP94 := true
      fPowNoRetargeting := false
      signetBlocks := false
      nSubsidyHalvingInterval := 840000 }
  | .signet =>
    { powLimit := .ofHex 0x00000377ae000000000000000000000000000000000000000000000000000000
      quantumPowLimit := .ofHex 0x7fffffffffffffffffffffffffffffffffffffffffffffffffffffffffffffff
      nQuantumQubits := 27
      nPowTargetTimespan := 14 * 24 * 60 * 60
      nPowTargetSpacing := 10 * 60
      fPowAllowMinDifficultyBlocks := false
      enforceBIP94 := false
      fPowNoRetargeting := false
      signetBlocks := true
      nSubsidyHalvingInterval := 840000 }
  | .regtest =>
    { powLimit := .ofHex 0x7fffffffffffffffffffffffffffffffffffffffffffffffffffffffffffffff
      quantumPowLimit := .ofHex 0x7fffffffffffffffffffffffffffffffffffffffffffffffffffffffffffffff
      nQuantumQubits := 12
      nPowTargetTimespan := 24 * 60 * 60
      nPowTargetSpacing := 10 * 60
      fPowAllowMinDifficultyBlocks := true
      enforceBIP94 := false
      fPowNoRetargeting := true
      signetBlocks := false
      nSubsidyHalvingInterval := 150 }

end HcsCoin
