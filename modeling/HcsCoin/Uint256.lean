import HcsCoin.Foundation.Codec

/-!
# Fixed-size opaque blobs

`BaseBlob width` is `base_blob<8 * width>` of `uint256.h`: a byte array whose
length is fixed by its type.  `compare` is `memcmp`, so it starts at byte 0;
the number a blob stands for is little-endian, with byte 0 least significant.
-/

namespace HcsCoin

open Foundation

structure BaseBlob (width : Nat) where
  mData : Bytes
  size_eq : mData.length = width
  deriving DecidableEq

abbrev Uint256 := BaseBlob 32

namespace BaseBlob

variable {width : Nat}

@[ext] theorem ext {a b : BaseBlob width} (h : a.mData = b.mData) : a = b := by
  cases a
  cases b
  simp_all

def null : BaseBlob width := ⟨List.replicate width 0, by simp⟩

instance : Inhabited (BaseBlob width) := ⟨null⟩

def isNull (a : BaseBlob width) : Bool := a.mData.all (· == 0)

def compare (a b : BaseBlob width) : Ordering :=
  scanCompare UInt8.toNat a.mData b.mData

def less (a b : BaseBlob width) : Bool := a.compare b == .lt

def getUint64 (a : BaseBlob width) (pos : Nat) : UInt64 :=
  UInt64.ofNat (leNat ((a.mData.drop (pos * 8)).take 8))

/-- The constructor from a hexadecimal constant: the digits are written most
significant first and stored in reverse byte order. -/
def ofHex (digits : Nat) : BaseBlob width := ⟨leBytes width digits, by simp⟩

def getHex (a : BaseBlob width) : String :=
  String.join (a.mData.reverse.map fun byte =>
    String.ofList [Nat.digitChar (byte.toNat / 16), Nat.digitChar (byte.toNat % 16)])

def toNat (a : BaseBlob width) : Nat := leNat a.mData

theorem toNat_lt (a : BaseBlob width) : a.toNat < 256 ^ width := by
  simpa [toNat, a.size_eq] using leNat_lt a.mData

theorem toNat_ofHex {digits : Nat} (h : digits < 256 ^ width) :
    (ofHex digits : BaseBlob width).toNat = digits :=
  leNat_leBytes_of_lt h

theorem isNull_iff (a : BaseBlob width) : a.isNull = true ↔ a = null := by
  rw [isNull, List.all_eq_true, BaseBlob.ext_iff, null, List.eq_replicate_iff]
  simp [a.size_eq]

end BaseBlob

end HcsCoin
