import DualBank.Proofs.Response

/-! A response, line by line. A scan collects the bytes of a line up to its newline and then deals
with the line as a whole, so what is found in a response is decided by what is kept of its
lines. -/
namespace DualBank.Http

/-- The first bytes of a line, if there is a bound. -/
def cut (bound : Option Nat) (line : Bytes) : Bytes :=
  match bound with
  | some most => line.take most
  | none => line

/-- A line without the carriage return at its end. -/
def stripped (line : Bytes) : Bytes :=
  if line.getLast? = some 0x0D then line.dropLast else line

/-- What is kept of a line. -/
def kept (bound : Option Nat) (line : Bytes) : Bytes := stripped (cut bound line)

namespace Head

variable {bound : Option Nat} {seen : Bool} {len : Option Word} {R line rest : Bytes}

/-! ## Lines of a response -/

/-- Lines, each with its newline. -/
def text (lines : List Bytes) : Bytes := lines.flatMap (· ++ [0x0A])

theorem text_cons (line : Bytes) (lines : List Bytes) (rest : Bytes) :
    text (line :: lines) ++ rest = line ++ 0x0A :: (text lines ++ rest) := by
  simp [text]

theorem text_snoc (lines : List Bytes) (line rest : Bytes) :
    text (lines ++ [line]) ++ rest = text lines ++ (line ++ 0x0A :: rest) := by
  simp [text]

/-- The lines of a response that a newline ends. -/
def lines (R : Bytes) : List Bytes := (R.splitOn 0x0A).dropLast

theorem not_newline {b : Bytes} (hb : 0x0A ∉ b) : ∀ c ∈ b, (c == 0x0A) = false := by
  intro c hc
  simpa using ne_of_mem_of_not_mem hc hb

theorem lines_cons (hline : 0x0A ∉ line) (rest : Bytes) :
    lines (line ++ 0x0A :: rest) = line :: lines rest := by
  rw [lines, List.splitOn, List.splitOnP_append_cons_of_forall_mem (not_newline hline) _ rfl,
    List.dropLast_cons_of_ne_nil (List.splitOnP_ne_nil _ rest)]
  rfl

theorem lines_unended (h : 0x0A ∉ R) : lines R = [] := by
  rw [lines, List.splitOn, List.splitOnP_eq_singleton (not_newline h)]
  rfl

theorem lines_text {all : List Bytes} (h : ∀ line ∈ all, 0x0A ∉ line) : lines (text all) = all := by
  induction all with
  | nil => rfl
  | cons line all ih =>
    obtain ⟨hline, h⟩ := List.forall_mem_cons.1 h
    have htext := text_cons line all []
    rw [List.append_nil, List.append_nil] at htext
    rw [htext, lines_cons hline, ih h]

theorem exists_lines (R : Bytes) : ∃ last, R = text (lines R) ++ last ∧ 0x0A ∉ last ∧
    ∀ line ∈ lines R, 0x0A ∉ line := by
  induction hlen : R.length using Nat.strongRecOn generalizing R with
  | ind n ih =>
    by_cases hended : 0x0A ∈ R
    · obtain ⟨line, rest, rfl, hline⟩ := List.eq_append_cons_of_mem hended
      have hshort : rest.length < n := by
        rw [← hlen, List.length_append, List.length_cons]
        omega
      obtain ⟨last, heq, hlast, hlines⟩ := ih _ hshort rest rfl
      rw [lines_cons hline]
      refine ⟨last, ?_, hlast, List.forall_mem_cons.2 ⟨hline, hlines⟩⟩
      rw [text_cons, ← heq]
    · rw [lines_unended hended]
      exact ⟨R, rfl, hended, fun _ hmem => nomatch hmem⟩

/-! ## Scanning a line -/

theorem push_cut (bound : Option Nat) (b : UInt8) :
    push bound ⟨seen, cut bound line, len⟩ b = ⟨seen, cut bound (line ++ [b]), len⟩ := by
  cases bound with
  | none => rfl
  | some most =>
    simp only [push, cut, List.length_take]
    split
    · rw [List.take_of_length_le (by omega), List.take_of_length_le (by simp; omega)]
    · rw [List.take_append_of_le_length (by omega)]

/-- The bytes of a line are collected, up to the bound. -/
theorem scan_bytes (start : Bytes) (hline : 0x0A ∉ line) (rest : Bytes) :
    scan bound ⟨seen, cut bound start, len⟩ (line ++ rest) =
      scan bound ⟨seen, cut bound (start ++ line), len⟩ rest := by
  induction line generalizing start with
  | nil => rw [List.nil_append, List.append_nil]
  | cons b line ih =>
    obtain ⟨hb, hline⟩ := List.ne_and_not_mem_of_not_mem_cons hline
    rw [List.cons_append, scan, if_neg (Ne.symm hb), push_cut, ih _ hline, List.append_assoc]
    rfl

theorem scan_start (hline : 0x0A ∉ line) (rest : Bytes) :
    scan bound ⟨seen, [], len⟩ (line ++ rest) = scan bound ⟨seen, cut bound line, len⟩ rest := by
  have hnil : cut bound [] = [] := by cases bound <;> simp [cut]
  have hscan : scan bound ⟨seen, cut bound [], len⟩ (line ++ rest) =
      scan bound ⟨seen, cut bound line, len⟩ rest := scan_bytes [] hline rest
  rwa [hnil] at hscan

/-- Nothing is found before a newline. -/
theorem split_unended (hrest : 0x0A ∉ rest) :
    split bound ⟨seen, [], len⟩ rest = .error .streamTruncated := by
  have hscan : scan bound ⟨seen, [], len⟩ (rest ++ []) =
      scan bound ⟨seen, cut bound rest, len⟩ [] := scan_start hrest []
  rw [List.append_nil, scan] at hscan
  rw [split, hscan]

/-- A line is dealt with as a whole. -/
theorem split_line (hline : 0x0A ∉ line) (rest : Bytes) :
    split bound ⟨seen, [], len⟩ (line ++ 0x0A :: rest) =
      match endLine ⟨seen, cut bound line, len⟩ with
      | .error e => .error e
      | .ok (.inr len) => .ok (len, rest)
      | .ok (.inl h) => split bound h rest := by
  rw [split, scan_start hline, scan, if_pos rfl]
  rcases endLine ⟨seen, cut bound line, len⟩ with e | h | len <;> rfl

theorem ended_cut (bound : Option Nat) (line : Bytes) :
    ended ⟨seen, cut bound line, len⟩ = kept bound line := rfl

/-- The first line is the status line. -/
theorem split_status (hline : 0x0A ∉ line) (rest : Bytes) :
    split bound {} (line ++ 0x0A :: rest) =
      match checkStatus (kept bound line) with
      | .error e => .error e
      | .ok () => split bound ⟨true, [], none⟩ rest := by
  rw [split_line hline, endLine, if_pos rfl, ended_cut]
  rcases checkStatus (kept bound line) with e | v <;> rfl

/-- An empty line ends the head. -/
theorem split_empty (hline : 0x0A ∉ line) (hempty : kept bound line = []) (rest : Bytes) :
    split bound ⟨true, [], len⟩ (line ++ 0x0A :: rest) =
      match len with
      | some n => if n = 0 then .error .httpMissingLength else .ok (n, rest)
      | none => .error .httpMissingLength := by
  rw [split_line hline, endLine, if_neg (by simp), ended_cut, if_pos hempty]
  rcases len with _ | n
  · rfl
  · by_cases hzero : n = 0
    · simp only [if_pos hzero]
    · simp only [if_neg hzero]

/-- Any other line is a header line. -/
theorem split_field (hline : 0x0A ∉ line) (hsome : kept bound line ≠ []) (rest : Bytes) :
    split bound ⟨true, [], len⟩ (line ++ 0x0A :: rest) =
      match contentLength? (kept bound line) with
      | .error e => .error e
      | .ok found => split bound ⟨true, [], found.or len⟩ rest := by
  rw [split_line hline, endLine, if_neg (by simp), ended_cut, if_neg hsome]
  rcases contentLength? (kept bound line) with e | v <;> rfl

end Head
end DualBank.Http
