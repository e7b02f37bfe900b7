import HcsCoin.Serialize

/-!
# Scripts: reading operations and counting signature checks

`GetScriptOp` reads one operation, with the data it pushes, off the front of a
script; `GetSigOpCount` runs over the operations until the script ends or an
operation is cut short.
-/

namespace HcsCoin

open Foundation

def OP_0 : UInt8 := 0x00
def OP_PUSHDATA1 : UInt8 := 0x4c
def OP_PUSHDATA2 : UInt8 := 0x4d
def OP_PUSHDATA4 : UInt8 := 0x4e
def OP_1 : UInt8 := 0x51
def OP_16 : UInt8 := 0x60
def OP_RETURN : UInt8 := 0x6a
def OP_DUP : UInt8 := 0x76
def OP_EQUAL : UInt8 := 0x87
def OP_EQUALVERIFY : UInt8 := 0x88
def OP_HASH160 : UInt8 := 0xa9
def OP_CHECKSIG : UInt8 := 0xac
def OP_CHECKSIGVERIFY : UInt8 := 0xad
def OP_CHECKMULTISIG : UInt8 := 0xae
def OP_CHECKMULTISIGVERIFY : UInt8 := 0xaf
def OP_INVALIDOPCODE : UInt8 := 0xff

def MAX_PUBKEYS_PER_MULTISIG : UInt32 := 20
def MAX_SCRIPT_SIZE : Nat := 10000

namespace CScript

/-- The size of the data an immediate operation pushes, and what follows the size. -/
def immediateSize (opcode : UInt8) (pc : Bytes) : Option (Nat × Bytes) :=
  let sized (width : Nat) : Option (Nat × Bytes) :=
    if pc.length < width then none else some (leNat (pc.take width), pc.drop width)
  if opcode < OP_PUSHDATA1 then some (opcode.toNat, pc)
  else if opcode = OP_PUSHDATA1 then sized 1
  else if opcode = OP_PUSHDATA2 then sized 2
  else if opcode = OP_PUSHDATA4 then sized 4
  else some (0, pc)

/-- The next operation and the rest of a script below `2 ^ 31` bytes; `none` where the
read fails. -/
def getScriptOp : Bytes → Option (UInt8 × Bytes)
  | [] => none
  | opcode :: pc =>
    if opcode ≤ OP_PUSHDATA4 then do
      let (nSize, pc) ← immediateSize opcode pc
      if pc.length < nSize then none else some (opcode, pc.drop nSize)
    else some (opcode, pc)

/-- Called with an opcode between `OP_1` and `OP_16` only. -/
def decodeOpN (opcode : UInt8) : UInt32 :=
  if opcode = OP_0 then 0 else (opcode - (OP_1 - 1)).toUInt32

def sigOpLoop (fAccurate : Bool) : Nat → Bytes → UInt8 → UInt32 → UInt32
  | 0, _, _, n => n
  | rounds + 1, pc, lastOpcode, n =>
    match getScriptOp pc with
    | none => n
    | some (opcode, pc) =>
      let n :=
        if opcode = OP_CHECKSIG ∨ opcode = OP_CHECKSIGVERIFY then n + 1
        else if opcode = OP_CHECKMULTISIG ∨ opcode = OP_CHECKMULTISIGVERIFY then
          if fAccurate ∧ lastOpcode ≥ OP_1 ∧ lastOpcode ≤ OP_16 then n + decodeOpN lastOpcode
          else n + MAX_PUBKEYS_PER_MULTISIG
        else n
      sigOpLoop fAccurate rounds pc opcode n

def getSigOpCount (script : Bytes) (fAccurate : Bool) : UInt32 :=
  sigOpLoop fAccurate script.length script OP_INVALIDOPCODE 0

/-! ## Pushed data and script forms -/

/-- One operation with the data it pushes, and where the read leaves the iterator; a read
that fails has passed the opcode, and the size if it is there. -/
def getOp : Bytes → Option (UInt8 × Bytes) × Bytes
  | [] => (none, [])
  | opcode :: pc =>
    if opcode ≤ OP_PUSHDATA4 then
      match immediateSize opcode pc with
      | none => (none, pc)
      | some (nSize, pc) =>
        if pc.length < nSize then (none, pc) else (some (opcode, pc.take nSize), pc.drop nSize)
    else (some (opcode, []), pc)

theorem getScriptOp_eq_getOp (pc : Bytes) :
    getScriptOp pc = (getOp pc).1.map fun op => (op.1, (getOp pc).2) := by
  cases pc with
  | nil => rfl
  | cons opcode pc =>
    rw [getScriptOp, getOp]
    split
    · cases immediateSize opcode pc with
      | none => rfl
      | some sized =>
        simp only [bind, Option.bind]
        split <;> rfl
    · rfl

/-- The bytes `operator<<` appends for a vector. -/
def pushData (data : Bytes) : Bytes :=
  let size := data.length % 0x100000000
  let appendDataSize : Bytes :=
    if size < OP_PUSHDATA1.toNat then [UInt8.ofNat size]
    else if size ≤ 0xff then [OP_PUSHDATA1, UInt8.ofNat size]
    else if size ≤ 0xffff then OP_PUSHDATA2 :: leBytes 2 size
    else OP_PUSHDATA4 :: leBytes 4 size
  appendDataSize ++ data

theorem headD_pushData_le (data : Bytes) : (pushData data).headD 0 ≤ OP_PUSHDATA4 := by
  rw [pushData]
  split_ifs with h
  · have hlt : data.length % 0x100000000 < 76 := h
    simp only [List.singleton_append, List.headD_cons, UInt8.le_iff_toNat_le, UInt8.toNat_ofNat']
    exact Nat.le_trans (Nat.mod_le _ _) (Nat.le_trans (Nat.le_of_lt hlt) (by decide))
  all_goals simp only [List.cons_append, List.headD_cons]; decide

/-- One of the four forms of a push: an opcode and the size in `width` bytes. -/
private theorem getOp_sized {data : Bytes} (opcode : UInt8) (width : Nat)
    (hpush : pushData data = opcode :: leBytes width data.length ++ data)
    (rest : Bytes) (hsize : immediateSize opcode (leBytes width data.length ++ (data ++ rest)) =
      some (data.length, data ++ rest)) :
    getOp (pushData data ++ rest) = (some ((pushData data).headD 0, data), rest) := by
  have hle := headD_pushData_le data
  rw [hpush, List.cons_append, List.headD_cons] at hle
  rw [hpush, List.cons_append, List.cons_append, List.append_assoc, getOp, if_pos hle, hsize]
  simp

theorem getOp_pushData {data : Bytes} (h : data.length < 2 ^ 32) (rest : Bytes) :
    getOp (pushData data ++ rest) = (some ((pushData data).headD 0, data), rest) := by
  have hmod : data.length % 0x100000000 = data.length := Nat.mod_eq_of_lt h
  have hread (width : Nat) (hlt : data.length < 256 ^ width) :
      (if (leBytes width data.length ++ (data ++ rest)).length < width then none
        else some (leNat ((leBytes width data.length ++ (data ++ rest)).take width),
          (leBytes width data.length ++ (data ++ rest)).drop width)) =
      some (data.length, data ++ rest) := by
    rw [if_neg (by simp), List.take_left' (leBytes_length _ _), leNat_leBytes_of_lt hlt,
      List.drop_left' (leBytes_length _ _)]
  by_cases h₀ : data.length < OP_PUSHDATA1.toNat
  · have hlt : data.length < 76 := h₀
    have htoNat : (UInt8.ofNat data.length).toNat = data.length := by
      rw [UInt8.toNat_ofNat']
      exact Nat.mod_eq_of_lt (by omega)
    have hop : UInt8.ofNat data.length < OP_PUSHDATA1 := by rwa [UInt8.lt_iff_toNat_lt, htoNat]
    refine getOp_sized (UInt8.ofNat data.length) 0 (by rw [pushData, hmod, if_pos h₀]; rfl) rest ?_
    rw [immediateSize, if_pos hop, htoNat]
    rfl
  · by_cases h₁ : data.length ≤ 0xff
    · exact getOp_sized OP_PUSHDATA1 1 (by simp only [pushData, hmod, if_neg h₀, if_pos h₁]; rfl)
        rest (hread 1 (by omega))
    · by_cases h₂ : data.length ≤ 0xffff
      · exact getOp_sized OP_PUSHDATA2 2
          (by simp only [pushData, hmod, if_neg h₀, if_neg h₁, if_pos h₂]) rest (hread 2 (by omega))
      · exact getOp_sized OP_PUSHDATA4 4
          (by simp only [pushData, hmod, if_neg h₀, if_neg h₁, if_neg h₂]) rest (hread 4 (by omega))

def isPushOnlyFrom : Nat → Bytes → Bool
  | 0, _ => true
  | rounds + 1, pc =>
    if pc.isEmpty then true
    else
      match getScriptOp pc with
      | none => false
      | some (opcode, pc) => if opcode > OP_16 then false else isPushOnlyFrom rounds pc

def isPushOnly (script : Bytes) : Bool := isPushOnlyFrom script.length script

def isPayToScriptHash (script : Bytes) : Bool :=
  script.length == 23 && script[0]? == some OP_HASH160 && script[1]? == some 0x14 &&
    script[22]? == some OP_EQUAL

def isWitnessProgram : Bytes → Option (Nat × Bytes)
  | opcode :: size :: program =>
    let length := program.length + 2
    if length < 4 ∨ length > 42 then none
    else if opcode ≠ OP_0 ∧ (opcode < OP_1 ∨ opcode > OP_16) then none
    else if size.toNat + 2 = length then some ((decodeOpN opcode).toNat, program)
    else none
  | _ => none

def isPayToAnchor (version : Nat) (program : Bytes) : Bool :=
  version == 1 && program == [0x4e, 0x73]

/-- The data of the last operation; `none` where the count by `scriptSig` returns early. -/
def lastPushFrom : Nat → Bytes → Bytes → Option Bytes
  | 0, _, vData => some vData
  | rounds + 1, pc, vData =>
    if pc.isEmpty then some vData
    else
      match getOp pc with
      | (none, _) => none
      | (some (opcode, vData), pc) =>
        if opcode > OP_16 then none else lastPushFrom rounds pc vData

def getSigOpCountSpending (script scriptSig : Bytes) : UInt32 :=
  if !isPayToScriptHash script then getSigOpCount script true
  else
    match lastPushFrom scriptSig.length scriptSig [] with
    | none => 0
    | some subscript => getSigOpCount subscript true

def isOpSuccess (opcode : UInt8) : Bool :=
  opcode == 80 || opcode == 98 || (126 ≤ opcode && opcode ≤ 129) ||
    (131 ≤ opcode && opcode ≤ 134) || (137 ≤ opcode && opcode ≤ 138) ||
    (141 ≤ opcode && opcode ≤ 142) || (149 ≤ opcode && opcode ≤ 153) ||
    (187 ≤ opcode && opcode ≤ 254)

def getOpsFrom : Nat → Bytes → Option (List (UInt8 × Bytes))
  | 0, _ => some []
  | rounds + 1, pc =>
    if pc.isEmpty then some []
    else
      match getOp pc with
      | (none, _) => none
      | (some op, pc) => (getOpsFrom rounds pc).map (op :: ·)

/-- What a loop over `GetOp` returns until the script is read.  Positions in a `prevector`
are 32-bit signed numbers: from `2 ^ 31` bytes on the end lies before the beginning, and
nothing is read. -/
def getOps (script : Bytes) : Option (List (UInt8 × Bytes)) :=
  if 2 ^ 31 ≤ script.length then some [] else getOpsFrom script.length script

theorem getOpsFrom_pushData {items : List Bytes} (hsize : ∀ data ∈ items, data.length < 2 ^ 32)
    {rounds : Nat} (hrounds : (items.flatMap pushData).length ≤ rounds) :
    getOpsFrom rounds (items.flatMap pushData) =
      some (items.map fun data => ((pushData data).headD 0, data)) := by
  induction items generalizing rounds with
  | nil => cases rounds <;> rfl
  | cons data items ih =>
    have hpos : 0 < (pushData data).length := by
      rw [pushData]
      split_ifs <;> simp
    rw [List.flatMap_cons] at hrounds ⊢
    rw [List.length_append] at hrounds
    obtain _ | rounds := rounds
    · omega
    have hne : (pushData data ++ items.flatMap pushData).isEmpty = false := by
      rw [List.isEmpty_eq_false_iff, ← List.length_pos_iff, List.length_append]
      omega
    obtain ⟨hdata, hitems⟩ := List.forall_mem_cons.mp hsize
    rw [getOpsFrom, hne, getOp_pushData hdata]
    have hread := @ih hitems rounds (by omega)
    simp only [hread]
    rfl

end CScript

/-- Called with an opcode up to `OP_PUSHDATA4` only. -/
def checkMinimalPush (data : Bytes) (opcode : UInt8) : Bool :=
  match data with
  | [] => opcode == OP_0
  | first :: rest =>
    if rest.isEmpty && 1 ≤ first && first ≤ 16 then false
    else if rest.isEmpty && first == 0x81 then false
    else if data.length ≤ 75 then opcode.toNat == data.length
    else if data.length ≤ 255 then opcode == OP_PUSHDATA1
    else if data.length ≤ 65535 then opcode == OP_PUSHDATA2
    else true

/-- The opcode of a push is the minimal one, unless the data has an opcode of its own. -/
theorem checkMinimalPush_pushData {data : Bytes} (h : data.length < 2 ^ 32)
    (hown : ∀ n, data = [n] → ¬ (1 ≤ n ∧ n ≤ 16) ∧ n ≠ 0x81) :
    checkMinimalPush data ((CScript.pushData data).headD 0) = true := by
  have hmod : data.length % 0x100000000 = data.length := Nat.mod_eq_of_lt h
  cases data with
  | nil => rfl
  | cons first rest =>
    have hfirst : (rest.isEmpty && 1 ≤ first && first ≤ 16) = false ∧
        (rest.isEmpty && first == 0x81) = false := by
      cases rest with
      | nil => simpa using hown first rfl
      | cons => exact ⟨rfl, rfl⟩
    rw [checkMinimalPush, hfirst.1, hfirst.2]
    simp only [CScript.pushData, hmod, Bool.false_eq_true, if_false]
    split_ifs <;> simp_all [OP_PUSHDATA1] <;> omega

end HcsCoin
