import ShortCircuit.ClientProgram
import ShortCircuit.UriRoundTrip

set_option autoImplicit false

/-!
# Making and showing records (`genrec.c`, `disrec.c`, `sendrec`)

`disrec` reads a file of frames and prints one line for each. It stops at the end of the
file, ends with a fatal error when a body is cut short, and its buffer holds 1024 bytes:
nothing keeps a larger body from being read behind it. `genrec` writes one frame with a
body of a given size, and `sendrec` one for each of its arguments.
-/
namespace ShortCircuit.RecordTools
open WordBytes FrameParser FrameStream LineInput Boundary OutputMachine Socket SendOrder
open SuccessfulOpen Backend Message Receive
open ClientProgram (ClientEvent Client clientStep untilNul lineMax sends_run)
open UriRoundTrip (decimalText decimalText_digits decimal_decimalText)
open UriAddress (digits_unique noDigit_cons)
open CStrings (CString ch strtol longMax)

def maxSize : ℕ := 1024

inductive ProgramEnd where
  | success
  | fatal
  | overflow
  deriving DecidableEq, Repr

/-- The format is `"[%u] (%.*s)\n"`. -/
def showRecord (body : List UInt8) : List UInt8 :=
  [ch '['] ++ decimalText body.length ++ [ch ']', ch ' ', ch '('] ++ untilNul body ++ [ch ')', ch '\n']

/-- What is printed for the rest of a file, and how the program ends. -/
def disrec (file : List UInt8) : List UInt8 × ProgramEnd :=
  if _h : file.length < 4 then ([], .success)
  else
    let size := value (file.take 4)
    let rest := file.drop 4
    if maxSize < min size rest.length then ([], .overflow)
    else if rest.length < size then ([], .fatal)
    else
      let r := disrec (rest.drop size)
      (showRecord (rest.take size) ++ r.1, r.2)
termination_by file.length
decreasing_by simp; omega

/-- How a file can end after its last whole record. -/
inductive Ends : List UInt8 → ProgramEnd → Prop where
  | success (tail : List UInt8) (h : tail.length < 4) : Ends tail .success
  | fatal (head rest : List UInt8) (h : head.length = 4) (hcut : rest.length < value head)
      (hroom : rest.length ≤ maxSize) : Ends (head ++ rest) .fatal
  | overflow (head rest : List UInt8) (h : head.length = 4) (hsize : maxSize < value head)
      (hrest : maxSize < rest.length) : Ends (head ++ rest) .overflow

theorem disrec_ends {tail : List UInt8} {outcome : ProgramEnd} (h : Ends tail outcome) :
    disrec tail = ([], outcome) := by
  cases h with
  | success tail h => rw [disrec, dif_pos h]
  | fatal head rest h hcut hroom =>
    rw [disrec, dif_neg (by simp [h])]
    simp only [List.take_left' h, List.drop_left' h]
    rw [if_neg (by omega), if_pos hcut]
  | overflow head rest h hsize hrest =>
    rw [disrec, dif_neg (by simp [h])]
    simp only [List.take_left' h, List.drop_left' h]
    rw [if_pos (by omega)]

theorem disrec_frame {m : List UInt8} (hm : m.length ≤ maxSize) (file : List UInt8) :
    disrec (frame m ++ file) = (showRecord m ++ (disrec file).1, (disrec file).2) := by
  have hvalue : value (bytes32 m.length) = m.length :=
    value_bytes32 (Nat.lt_of_le_of_lt hm (by decide))
  rw [disrec, dif_neg (by rw [List.length_append, frame_length]; omega)]
  simp only [frame, List.append_assoc, List.take_left' (bytes32_length _),
    List.drop_left' (bytes32_length _), hvalue, List.length_append]
  rw [if_neg (by omega), if_neg (by omega), List.take_left, List.drop_left]

theorem disrec_wire {ms : List (List UInt8)} {tail : List UInt8} {outcome : ProgramEnd}
    (hm : ∀ m ∈ ms, m.length ≤ maxSize) (ht : Ends tail outcome) :
    disrec (wire ms ++ tail) = (ms.flatMap showRecord, outcome) := by
  induction ms with
  | nil => exact disrec_ends ht
  | cons m ms ih =>
    obtain ⟨hm0, hms⟩ := List.forall_mem_cons.mp hm
    rw [wire_cons, List.append_assoc, disrec_frame hm0, ih hms, List.flatMap_cons]

/-- Every file is some records that fit and an end. -/
theorem disrec_split (file : List UInt8) :
    ∃ ms tail outcome, file = wire ms ++ tail ∧ (∀ m ∈ ms, m.length ≤ maxSize) ∧
      Ends tail outcome := by
  induction hn : file.length using Nat.strong_induction_on generalizing file with
  | _ n ih =>
    by_cases hshort : file.length < 4
    · exact ⟨[], file, .success, rfl, by simp, .success file hshort⟩
    · obtain ⟨head, rest, rfl, h4⟩ : ∃ head rest, file = head ++ rest ∧ head.length = 4 :=
        ⟨file.take 4, file.drop 4, (List.take_append_drop 4 file).symm, by simp; omega⟩
      by_cases hover : maxSize < value head ∧ maxSize < rest.length
      · exact ⟨[], head ++ rest, .overflow, rfl, by simp, .overflow head rest h4 hover.1 hover.2⟩
      · by_cases hcut : rest.length < value head
        · exact ⟨[], head ++ rest, .fatal, rfl, by simp, .fatal head rest h4 hcut (by omega)⟩
        · have hlen : (rest.take (value head)).length = value head := by
            rw [List.length_take]
            omega
          have hframe : frame (rest.take (value head)) = head ++ rest.take (value head) := by
            rw [frame, hlen, bytes32_value h4]
          have hshorter : (rest.drop (value head)).length < n := by
            rw [← hn, List.length_append, List.length_drop]
            omega
          obtain ⟨ms, tail, outcome, hsplit, hms, hends⟩ := ih _ hshorter _ rfl
          refine ⟨rest.take (value head) :: ms, tail, outcome, ?_, ?_, hends⟩
          · rw [wire_cons, hframe, List.append_assoc, List.append_assoc, ← hsplit,
              List.take_append_drop]
          · rw [List.forall_mem_cons, hlen]
            exact ⟨by omega, hms⟩

/-- What `disrec` does with every file: it prints the records in front of it that fit its buffer,
and what follows them decides how it ends. -/
theorem disrec_iff (file out : List UInt8) (outcome : ProgramEnd) :
    disrec file = (out, outcome) ↔
      ∃ ms tail, file = wire ms ++ tail ∧ (∀ m ∈ ms, m.length ≤ maxSize) ∧ Ends tail outcome ∧
        out = ms.flatMap showRecord := by
  constructor
  · intro h
    obtain ⟨ms, tail, outcome', rfl, hms, hends⟩ := disrec_split file
    rw [disrec_wire hms hends] at h
    obtain ⟨rfl, rfl⟩ := Prod.mk.inj h
    exact ⟨ms, tail, rfl, hms, hends, rfl⟩
  · rintro ⟨ms, tail, rfl, hms, hends, rfl⟩
    exact disrec_wire hms hends

theorem ends_of_records {more : List (List UInt8)} {tail t : List UInt8} {outcome : ProgramEnd}
    (hcap : ∀ m ∈ more, m.length ≤ maxSize) (hrest : tail ++ t = wire more)
    (h : Ends tail outcome) : outcome ≠ .overflow ∧ (t = [] → more = [] ∧ outcome = .success) := by
  have hfirst : ∀ {head rest : List UInt8}, head.length = 4 → head ++ rest = wire more →
      ∃ m ms, more = m :: ms ∧ value head = m.length ∧ rest = m ++ wire ms := by
    intro head rest h4 heq
    cases more with
    | nil =>
      have hlen := congrArg List.length heq
      simp [h4] at hlen
    | cons m ms =>
      rw [wire_cons, frame, List.append_assoc] at heq
      obtain ⟨rfl, hbody⟩ := List.append_inj heq (by rw [h4]; rfl)
      have hm := (List.forall_mem_cons.mp hcap).1
      exact ⟨m, ms, rfl, value_bytes32 (Nat.lt_of_le_of_lt hm (by decide)), hbody⟩
  cases h with
  | success tail hshort =>
    refine ⟨by decide, ?_⟩
    rintro rfl
    rw [List.append_nil] at hrest
    refine ⟨?_, rfl⟩
    cases more with
    | nil => rfl
    | cons m ms =>
      have hlen := congrArg List.length hrest
      rw [wire_cons, List.length_append, frame_length] at hlen
      omega
  | fatal head rest h4 hcut hroom =>
    refine ⟨by decide, ?_⟩
    rintro rfl
    rw [List.append_nil] at hrest
    obtain ⟨m, ms, _, hvalue, rfl⟩ := hfirst h4 hrest
    rw [hvalue, List.length_append] at hcut
    omega
  | overflow head rest h4 hsize hlong =>
    rw [List.append_assoc] at hrest
    obtain ⟨m, ms, rfl, hvalue, _⟩ := hfirst h4 hrest
    have hm := (List.forall_mem_cons.mp hcap).1
    omega

def text (literal : String) : List UInt8 := literal.toList.map ch

def paragraph : List UInt8 :=
  ["Lorem ipsum dolor sit amet, consectetur adipiscing elit, sed do eiusmod ",
    "tempor incididunt ut labore et dolore magna aliqua. Ut enim ad minim ",
    "veniam, quis nostrud exercitation ullamco laboris nisi ut aliquip ex ea ",
    "commodo consequat. Duis aute irure dolor in reprehenderit in voluptate ",
    "velit esse cillum dolore eu fugiat nulla pariatur. Excepteur sint ",
    "occaecat cupidatat non proident, sunt in culpa qui officia deserunt ",
    "mollit anim id est laborum."].flatMap text

def loremNew (size : ℕ) : List UInt8 :=
  (List.range size).map fun i => paragraph.getD (i % paragraph.length) 0

inductive Cmd where
  | printSize
  | printData
  | printBoth
  | invalid
  deriving DecidableEq, Repr

def parseCmd (cmd : List UInt8) : Cmd :=
  if cmd = text "print-size" then .printSize
  else if cmd = text "print-data" then .printData
  else if cmd = text "print-both" then .printBoth
  else .invalid

/-- `none` is a fatal error. -/
def parseSize (num : List UInt8) : Option ℕ :=
  let r := strtol num
  if r.1 < 0 ∨ r.1 > longMax then none
  else if r.2 = 0 then none
  else some r.1.toNat

/-- `fputs` stops at the terminating zero. -/
def printData (mallocOk : Bool) (size : ℕ) : List UInt8 × ProgramEnd :=
  if mallocOk then (untilNul (loremNew size ++ [0]), .success) else ([], .fatal)

def printSize (size : ℕ) : List UInt8 := bytes32 (u32 size)

def printBoth (mallocOk : Bool) (size : ℕ) : List UInt8 × ProgramEnd :=
  let r := printData mallocOk size
  (printSize size ++ r.1, r.2)

/-- What is printed for the arguments, and how the program ends. -/
def genrec (mallocOk : Bool) : List (List UInt8) → List UInt8 × ProgramEnd
  | [cmd, num] =>
    let command := parseCmd cmd
    match parseSize num with
    | none => ([], .fatal)
    | some size =>
      match command with
      | .invalid => ([], .fatal)
      | .printSize => (printSize size, .success)
      | .printData => printData mallocOk size
      | .printBoth => printBoth mallocOk size
  | _ => ([], .fatal)

/-- What the script pipes into the connection; it goes on after a fatal error. -/
def sendrec (sizes : List (List UInt8)) : List UInt8 :=
  sizes.flatMap fun size => (genrec true [text "print-both", size]).1

section Generated

theorem paragraph_nul_free : 0 ∉ paragraph := by decide +kernel

theorem paragraph_ne_nil : paragraph ≠ [] := by decide +kernel

theorem parseCmd_printBoth : parseCmd (text "print-both") = .printBoth := by decide +kernel

@[simp] theorem loremNew_length (size : ℕ) : (loremNew size).length = size := by simp [loremNew]

theorem loremNew_nul_free (size : ℕ) : 0 ∉ loremNew size := by
  intro hz
  obtain ⟨i, _, hi⟩ := List.mem_map.mp hz
  have hlt : i % paragraph.length < paragraph.length :=
    Nat.mod_lt _ (List.length_pos_iff.mpr paragraph_ne_nil)
  rw [List.getD_eq_getElem _ _ hlt] at hi
  exact paragraph_nul_free (hi ▸ List.getElem_mem hlt)

theorem bytes32_u32 (n : ℕ) : bytes32 (u32 n) = bytes32 n := by
  have hbyte : ∀ a b : ℕ, a % 256 = b % 256 → UInt8.ofNat a = UInt8.ofNat b := by
    intro a b h
    rw [← UInt8.toNat_inj, UInt8.toNat_ofNat', UInt8.toNat_ofNat']
    exact h
  have h24 := hbyte (u32 n / 2 ^ 24) (n / 2 ^ 24) (by unfold u32; omega)
  have h16 := hbyte (u32 n / 2 ^ 16) (n / 2 ^ 16) (by unfold u32; omega)
  have h8 := hbyte (u32 n / 2 ^ 8) (n / 2 ^ 8) (by unfold u32; omega)
  have h0 := hbyte (u32 n) n (by unfold u32; omega)
  rw [bytes32, bytes32, h24, h16, h8, h0]

/-- One record of `sendrec`; its header is the size modulo `2 ^ 32`. -/
theorem genrec_both (num : List UInt8) :
    (genrec true [text "print-both", num]).1 =
      match parseSize num with
      | none => []
      | some n => frame (loremNew n) := by
  have huntil : ∀ n, untilNul (loremNew n ++ [0]) = loremNew n := by
    intro n
    have hall : ∀ x ∈ loremNew n, decide (x ≠ 0) = true := by
      intro x hx
      have hne : x ≠ 0 := fun h0 => loremNew_nul_free n (h0 ▸ hx)
      simpa using hne
    rw [untilNul, List.takeWhile_append_of_pos hall]
    simp
  simp only [genrec, parseCmd_printBoth]
  cases parseSize num with
  | none => rfl
  | some n => simp [printBoth, printData, printSize, huntil, frame, bytes32_u32]

theorem decimalText_inj {m n : ℕ} (h : decimalText m = decimalText n) : m = n := by
  rw [← decimal_decimalText m, ← decimal_decimalText n, h]

/-- A shown record begins with its size. -/
theorem showRecord_size {xs ys s t : List UInt8} (h : showRecord xs ++ s = showRecord ys ++ t) :
    xs.length = ys.length := by
  simp only [showRecord, List.append_assoc, List.cons.injEq, true_and,
    List.cons_append] at h
  exact decimalText_inj (digits_unique (decimalText_digits _) (decimalText_digits _)
    (noDigit_cons _ (by decide)) (noDigit_cons _ (by decide)) h).1

/-- A record that does not fit the buffer is not shown as it was made. -/
theorem disrec_large {n : ℕ} (hn : maxSize < n) (rest out : List UInt8) :
    disrec (frame (loremNew n) ++ rest) ≠ (showRecord (loremNew n) ++ out, .success) := by
  intro h
  have hvalue : value (bytes32 n) = u32 n := by rw [← bytes32_u32, value_bytes32 (u32_lt n)]
  rw [disrec, dif_neg (by rw [List.length_append, frame_length]; omega)] at h
  simp only [frame, List.append_assoc, loremNew_length, List.take_left' (bytes32_length _),
    List.drop_left' (bytes32_length _), hvalue, List.length_append] at h
  split at h
  · exact absurd (congrArg Prod.snd h) (by simp)
  · rename_i hroom
    split at h
    · exact absurd (congrArg Prod.snd h) (by simp)
    · have hsize := showRecord_size (congrArg Prod.fst h)
      rw [List.length_take, List.length_append, loremNew_length] at hsize
      omega

theorem disrec_made {n : ℕ} (hn : n ≤ maxSize) (rest out : List UInt8) :
    disrec (frame (loremNew n) ++ rest) = (showRecord (loremNew n) ++ out, .success) ↔
      disrec rest = (out, .success) := by
  rw [disrec_frame (by rwa [loremNew_length])]
  constructor
  · intro h
    obtain ⟨hout, houtcome⟩ := Prod.mk.inj h
    exact Prod.ext (List.append_cancel_left hout) houtcome
  · intro h
    rw [h]

end Generated

/-- What `sendrec` sends for its arguments, `disrec` shows record by record, exactly if every size
among them fits the buffer. -/
theorem sendrec_shown_iff (sizes : List (List UInt8)) :
    disrec (sendrec sizes) =
        ((sizes.filterMap parseSize).flatMap (fun n => showRecord (loremNew n)), .success) ↔
      ∀ n ∈ sizes.filterMap parseSize, n ≤ maxSize := by
  induction sizes with
  | nil =>
    refine iff_of_true ?_ (by simp)
    exact disrec_ends (.success [] (by decide))
  | cons num sizes ih =>
    have hcons : sendrec (num :: sizes) =
        (genrec true [text "print-both", num]).1 ++ sendrec sizes := List.flatMap_cons
    rw [hcons, genrec_both]
    cases hsize : parseSize num with
    | none =>
      rw [List.filterMap_cons_none hsize]
      exact ih
    | some n =>
      rw [List.filterMap_cons_some hsize, List.flatMap_cons, List.forall_mem_cons, ← ih]
      by_cases hn : n ≤ maxSize
      · rw [disrec_made hn]
        exact (and_iff_right hn).symm
      · refine iff_of_false (disrec_large (by omega) _ _) ?_
        exact fun hboth => hn hboth.1

end ShortCircuit.RecordTools
