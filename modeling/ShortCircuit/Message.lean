import ShortCircuit.CStrings
import ShortCircuit.WordBytes

set_option autoImplicit false

/-!
# Messages and the reader that fills them (`msg.c`, `msg_reader.c`)

A message is the word `size_be`, kept as its bytes in memory, and the data area it
points to. `id` numbers the messages that the allocation hook returned and `cap` is
the size it was asked for; the code stores neither. The reader's two pointers are
offsets from `&msg->size_be` and `msg->data`.
-/
namespace ShortCircuit.Message
open WordBytes
open CStrings (Fault)

/-- Memory as an allocation hook returns it, with indeterminate contents. -/
structure Block where
  head : Area
  data : Area

/-- The answers of the allocation hook, call by call; `none` is a null pointer. -/
abbrev Heap := ℕ → Option Block

def reliable (blocks : ℕ → Block) : Heap := fun n => some (blocks n)

def zeroBlocks : ℕ → Block := fun _ => ⟨fun _ => 0, fun _ => 0⟩

structure ScMsg where
  id : ℕ
  cap : ℕ
  sizeBe : Area
  data : Area

/-- A message of one byte. -/
def shortMsg : ScMsg := ⟨0, 1, fun i => if i = 3 then 1 else 0, fun _ => 7⟩

def scMsgSizeBytes : ℕ := 4

/-- `ctb_htonl` and `ctb_ntohl`, with the converted word as its bytes in memory. -/
structure Conversion where
  htonl : ℕ → List UInt8
  ntohl : List UInt8 → ℕ

/-- The converted word has its most significant byte first. -/
structure NetworkOrder (ctb : Conversion) : Prop where
  length : ∀ n, n < 2 ^ 32 → (ctb.htonl n).length = 4
  htonl : ∀ n, n < 2 ^ 32 → value (ctb.htonl n) = n
  ntohl : ∀ word, word.length = 4 → ctb.ntohl word = value word

def bigEndian : Conversion := ⟨bytes32, value⟩

theorem bigEndian_networkOrder : NetworkOrder bigEndian :=
  ⟨fun n _ => bytes32_length n, fun _ hn => value_bytes32 hn, fun _ _ => rfl⟩

def scMsgAlloc (heap : Heap) (n size : ℕ) : Option ScMsg :=
  (heap n).map fun b => ⟨n, size, b.head, b.data⟩

def scMsgSetSizeBy (ctb : Conversion) (msg : ScMsg) (size : ℕ) : ScMsg :=
  { msg with sizeBe := msg.sizeBe.store 0 (ctb.htonl size) }

def scMsgGetSizeBy (ctb : Conversion) (msg : ScMsg) : ℕ := ctb.ntohl (msg.sizeBe.load 4)

def scMsgSetSize : ScMsg → ℕ → ScMsg := scMsgSetSizeBy bigEndian

def scMsgGetSize : ScMsg → ℕ := scMsgGetSizeBy bigEndian

section Conforming

variable {ctb : Conversion} (h : NetworkOrder ctb) (msg : ScMsg)
include h

/-- Only these two functions convert, and every conversion to network order gives the same two. -/
theorem scMsgSetSize_conforming {size : ℕ} (hsize : size < 2 ^ 32) :
    scMsgSetSizeBy ctb msg size = scMsgSetSize msg size := by
  have hbytes : ctb.htonl size = bytes32 size := by
    rw [← bytes32_value (h.length size hsize), h.htonl size hsize]
  rw [scMsgSetSizeBy, hbytes]
  rfl

theorem scMsgGetSize_conforming : scMsgGetSizeBy ctb msg = scMsgGetSize msg :=
  h.ntohl _ (Area.load_length msg.sizeBe 4)

end Conforming

def scMsgInit : Option ScMsg → Except Fault ScMsg
  | none => .error .nullPointer
  | some msg =>
    .ok { msg with sizeBe := msg.sizeBe.store 0 [0, 0, 0, 0], data := msg.data.store 0 [0] }

theorem scMsgGetSize_lt (msg : ScMsg) : scMsgGetSize msg < 2 ^ 32 := by
  have h := value_lt (msg.sizeBe.load 4)
  rw [Area.load_length] at h
  exact h

theorem scMsgGetSize_scMsgSetSize (msg : ScMsg) {size : ℕ} (h : size < 2 ^ 32) :
    scMsgGetSize (scMsgSetSize msg size) = size := by
  have hload : (msg.sizeBe.store 0 (bytes32 size)).load (0 + 4) = [] ++ bytes32 size :=
    Area.load_store msg.sizeBe (by simp [Area.load]) (bytes32 size)
  rw [Nat.zero_add, List.nil_append] at hload
  simp only [scMsgGetSize, scMsgSetSize, scMsgGetSizeBy, scMsgSetSizeBy, bigEndian, hload,
    value_bytes32 h]

structure MsgReader where
  headPos : ℕ
  bodyPos : ℕ
  deriving DecidableEq, Repr

def msgReaderInit : MsgReader := ⟨0, 0⟩

/-- The new position and the part of `size` that was not skipped. -/
def skipPos (pos avail size : ℕ) : ℕ × ℕ :=
  let skip := if avail < size then avail else size
  (pos + skip, sub32 size skip)

def msgReaderAvailHeadSize (reader : MsgReader) : ℕ :=
  sub32 scMsgSizeBytes (u32 reader.headPos)

def msgReaderAvailBodySize (msg : ScMsg) (reader : MsgReader) : ℕ :=
  sub32 (scMsgGetSize msg) (u32 reader.bodyPos)

def msgReaderParseHead (reader : MsgReader) (size : ℕ) : MsgReader × ℕ :=
  let r := skipPos reader.headPos (msgReaderAvailHeadSize reader) size
  ({ reader with headPos := r.1 }, r.2)

def msgReaderParseBody (msg : ScMsg) (reader : MsgReader) (size : ℕ) : MsgReader × ℕ :=
  let r := skipPos reader.bodyPos (msgReaderAvailBodySize msg reader) size
  ({ reader with bodyPos := r.1 }, r.2)

def msgReaderFinished (msg : ScMsg) (reader : MsgReader) : Bool :=
  msgReaderAvailBodySize msg reader == 0

theorem skipPos_of_le (pos : ℕ) {avail size : ℕ} (h : size ≤ avail) (ha : avail < 2 ^ 32) :
    skipPos pos avail size = (pos + size, 0) := by
  simp only [skipPos, if_neg (Nat.not_lt.mpr h)]
  rw [sub32_of_le (le_refl _) (by omega), Nat.sub_self]

theorem availHead_of_le {reader : MsgReader} (h : reader.headPos ≤ 4) :
    msgReaderAvailHeadSize reader = 4 - reader.headPos := by
  rw [msgReaderAvailHeadSize, u32_of_lt (by omega)]
  exact sub32_of_le h (by decide)

theorem availBody_of_le {msg : ScMsg} {reader : MsgReader}
    (h : reader.bodyPos ≤ scMsgGetSize msg) :
    msgReaderAvailBodySize msg reader = scMsgGetSize msg - reader.bodyPos := by
  have hlt := scMsgGetSize_lt msg
  rw [msgReaderAvailBodySize, u32_of_lt (by omega)]
  exact sub32_of_le h hlt

theorem parseHead_of_le {reader : MsgReader} {size : ℕ} (h : reader.headPos + size ≤ 4) :
    msgReaderParseHead reader size = ({ reader with headPos := reader.headPos + size }, 0) := by
  have ha : msgReaderAvailHeadSize reader = 4 - reader.headPos := availHead_of_le (by omega)
  simp only [msgReaderParseHead, ha, skipPos_of_le reader.headPos (show size ≤ 4 - reader.headPos by omega)
    (by omega)]

theorem parseBody_of_le {msg : ScMsg} {reader : MsgReader} {size : ℕ}
    (h : reader.bodyPos + size ≤ scMsgGetSize msg) :
    msgReaderParseBody msg reader size =
      ({ reader with bodyPos := reader.bodyPos + size }, 0) := by
  have ha : msgReaderAvailBodySize msg reader = scMsgGetSize msg - reader.bodyPos :=
    availBody_of_le (by omega)
  have hlt := scMsgGetSize_lt msg
  simp only [msgReaderParseBody, ha, skipPos_of_le reader.bodyPos
    (show size ≤ scMsgGetSize msg - reader.bodyPos by omega) (by omega)]

theorem finished_iff {msg : ScMsg} {reader : MsgReader} (h : reader.bodyPos ≤ scMsgGetSize msg) :
    msgReaderFinished msg reader = true ↔ reader.bodyPos = scMsgGetSize msg := by
  rw [msgReaderFinished, availBody_of_le h, beq_iff_eq]
  omega

end ShortCircuit.Message
