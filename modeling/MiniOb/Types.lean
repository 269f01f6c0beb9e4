import Mathlib

/-! # Shared types

Return codes (`rc.h`), page and record identifiers (`record_manager.h`), attribute types and comparison
operators (`parse_defs.h`), and how the storage layer reads numbers and C strings from raw bytes. -/

namespace MiniOb

inductive RC
  | success
  | genericError
  | invalidArgument
  | nomem
  | ioerr
  | ioerrRead
  | ioerrWrite
  | ioerrAccess
  | ioerrClose
  | bufferpoolClosed
  | bufferpoolInvalidPageNum
  | bufferpoolPagePinned
  | bufferpoolOpenTooManyFiles
  | bufferpoolIllegalFileId
  | recordClosed
  | recordOpenned
  | recordInvalidrid
  | recordNoMoreIdxInMem
  | recordInvalidKey
  | recordDuplicateKey
  | recordNomem
  | recordScanclosed
  | recordEof
  | recordRecordNotExist
  | schemaDbExist
  | schemaTableNotExist
  | schemaTableExist
  | schemaFieldMissing
  | schemaFieldTypeMismatch
  | schemaIndexExist
  | schemaFieldNotExist
  | schemaTableNameIllegal
  | sqlSyntax
  | lockedUnlock
  deriving DecidableEq, Repr

def IsInt (v : Int) : Prop := -2 ^ 31 ≤ v ∧ v < 2 ^ 31

instance (v : Int) : Decidable (IsInt v) := inferInstanceAs (Decidable (_ ∧ _))

/-- `PageNum` is a C `int`; `-1` is `BP_INVALID_PAGE_NUM`. -/
abbrev PageNum := Int

def bpInvalidPageNum : PageNum := -1

abbrev SlotNum := Int

structure RID where
  pageNum : PageNum
  slotNum : SlotNum
  deriving DecidableEq, Repr

/-- `AttrType`, with the constructors in the order of `parse_defs.h`. -/
inductive AttrType
  | undefined
  | chars
  | ints
  | date
  | floats
  | texts
  | nulls
  deriving DecidableEq, Repr

inductive CompOp
  | equalTo
  | lessEqual
  | notEqual
  | lessThan
  | greatEqual
  | greatThan
  | noOp
  | isOp
  | isNotOp
  | condIn
  | notIn
  deriving DecidableEq, Repr

/-- `BP_PAGE_DATA_SIZE`: the bytes of a page behind its number. -/
def bpPageDataSize : Nat := 4092

/-! ### Raw bytes -/

abbrev Bytes := List UInt8

abbrev Pointed := Nat → UInt8

/-- `*(unsigned int *)b`, little endian. A read past the end finds zeros. -/
def readUInt (b : Bytes) : Nat :=
  (b.getD 0 0).toNat + 256 * (b.getD 1 0).toNat + 65536 * (b.getD 2 0).toNat + 16777216 * (b.getD 3 0).toNat

def readInt (b : Bytes) : Int :=
  if readUInt b < 2147483648 then readUInt b else (readUInt b : Int) - 4294967296

/-- `strncmp(s1, s2, n)`: the difference at the first byte where the strings differ, up to a terminator. -/
def strncmp : Bytes → Bytes → Nat → Int
  | _, _, 0 => 0
  | s1, s2, n + 1 =>
    let c1 := s1.headD 0
    let c2 := s2.headD 0
    if c1 ≠ c2 then (c1.toNat : Int) - c2.toNat
    else if c1 = 0 then 0
    else strncmp s1.tail s2.tail n

/-- The bytes of a C string: up to the terminator, and at most `n` of them. -/
def cString : Bytes → Nat → Bytes
  | _, 0 => []
  | s, n + 1 => if s.headD 0 = 0 then [] else s.headD 0 :: cString s.tail n

/-- `isspace`, in the locale of C. -/
def isspace (c : UInt8) : Bool := c == 32 || 9 ≤ c && c ≤ 13

/-- The second loop of `strip`. In front of 0 comes the greatest `size_t`, which is no position of a string: `none` is
    to read there. -/
def stripTail (str : Bytes) (head tail : Nat) : Option Nat :=
  if isspace (str.getD tail 0) ∧ tail ≠ head then
    match tail with
    | 0 => none
    | tail + 1 => stripTail str head tail
  else some tail

/-- `strip`. The first loop ends at the terminator, if not before. The last position of an empty string is the greatest
    `size_t`. -/
def strip (str : Bytes) : Option Bytes :=
  let head := str.findIdx (!isspace ·)
  match str.length with
  | 0 => none
  | tail + 1 => (stripTail str head tail).map fun tail => (str.drop head).take (tail - head + 1)

theorem readUInt_lt (b : Bytes) : readUInt b < 2 ^ 32 := by
  have bound : ∀ c : UInt8, c.toNat < 256 := UInt8.toNat_lt
  have h0 := bound (b.getD 0 0)
  have h1 := bound (b.getD 1 0)
  have h2 := bound (b.getD 2 0)
  have h3 := bound (b.getD 3 0)
  unfold readUInt
  omega

theorem readInt_isInt (b : Bytes) : IsInt (readInt b) := by
  have hb := readUInt_lt b
  unfold IsInt readInt
  split <;> omega

theorem zero_not_mem_cString : ∀ (n : Nat) (b : Bytes), 0 ∉ cString b n
  | 0, _ => List.not_mem_nil
  | n + 1, b => by
    rw [cString]
    split
    · exact List.not_mem_nil
    · rename_i hc
      rw [List.mem_cons, not_or]
      exact ⟨Ne.symm hc, zero_not_mem_cString n b.tail⟩

end MiniOb
