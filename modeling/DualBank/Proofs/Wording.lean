import Mathlib.Data.List.Forall2
import Mathlib.Data.List.Induction
import Mathlib.Data.List.TakeDrop
import Mathlib.Data.Nat.Digits.Defs
import DualBank.Http.Head

/-! What a line of a head says, in the words of its grammar: parts set apart by spaces, decimal
numbers, names that may be in capitals, and blanks around them. The readers of a line agree with
it. -/
namespace DualBank.Http

variable {b t line x y : Bytes}

/-! ## Words and numbers -/

/-- The parts of a line that spaces set apart. Empty ones do not count. -/
def parts (line : Bytes) : List Bytes := (line.splitOn 0x20).filter (· ≠ [])

/-- A row of digits, one at least, and the number that it writes. -/
def Decimal (b : Bytes) (n : Nat) : Prop :=
  b ≠ [] ∧ (∀ d ∈ b, 0x30 ≤ d ∧ d ≤ 0x39) ∧
    n = Nat.ofDigits 10 (b.reverse.map fun d => d.toNat - 0x30)

/-- The bytes are those of the text, or capitals for them. -/
def Spells (text b : Bytes) : Prop :=
  List.Forall₂ (fun c d => c = d ∨ 0x41 ≤ c ∧ c ≤ 0x5A ∧ c + 0x20 = d) b text

/-- What is left of the bytes without the blanks around it. -/
def Trimmed (b t : Bytes) : Prop :=
  ∃ x y, b = x ++ t ++ y ∧ (∀ c ∈ x, isBlank c = true) ∧ (∀ c ∈ y, isBlank c = true) ∧
    (∀ c ∈ t.head?, isBlank c = false) ∧ ∀ c ∈ t.getLast?, isBlank c = false

theorem foldl_digits (b : Bytes) : b.foldl (fun n d => n * 10 + (d.toNat - 0x30)) 0 =
    Nat.ofDigits 10 (b.reverse.map fun d => d.toNat - 0x30) := by
  induction b using List.reverseRecOn with
  | nil => rfl
  | append_singleton b d ih =>
    rw [List.foldl_append, List.foldl_cons, List.foldl_nil, ih]
    simp only [List.reverse_append, List.reverse_cons, List.reverse_nil, List.nil_append,
      List.cons_append, List.map_cons, Nat.ofDigits_cons]
    omega

theorem number?_eq_some {n : Nat} : number? b = some n ↔ Decimal b n := by
  have hdigits : b.all isDigit = true ↔ ∀ d ∈ b, 0x30 ≤ d ∧ d ≤ 0x39 := by
    simp [isDigit]
  unfold number? Decimal
  rw [foldl_digits]
  split
  · rename_i h
    rw [hdigits] at h
    constructor
    · intro hn
      cases hn
      exact ⟨h.1, h.2, rfl⟩
    · rintro ⟨_, _, rfl⟩
      rfl
  · rename_i h
    rw [hdigits] at h
    simp only [reduceCtorEq, false_iff]
    rintro ⟨hne, hall, _⟩
    exact h ⟨hne, hall⟩

/-- In lower case, the bytes are a text without capitals exactly if they spell it. -/
theorem map_toLower_eq {text : Bytes} (h : ∀ d ∈ text, ¬(0x41 ≤ d ∧ d ≤ 0x5A)) :
    b.map toLower = text ↔ Spells text b := by
  induction text generalizing b with
  | nil => cases b <;> simp [Spells]
  | cons d text ih =>
    cases b with
    | nil => simp [Spells]
    | cons c b =>
      have hd := h d List.mem_cons_self
      have hletter : toLower c = d ↔ c = d ∨ 0x41 ≤ c ∧ c ≤ 0x5A ∧ c + 0x20 = d := by
        unfold toLower
        split
        · rename_i hc
          simp only [Bool.and_eq_true, decide_eq_true_eq] at hc
          constructor
          · intro heq
            exact .inr ⟨hc.1, hc.2, heq⟩
          · rintro (rfl | ⟨_, _, heq⟩)
            · exact absurd hc hd
            · exact heq
        · rename_i hc
          simp only [Bool.and_eq_true, decide_eq_true_eq] at hc
          constructor
          · exact .inl
          · rintro (heq | ⟨hlo, hhi, _⟩)
            · exact heq
            · exact absurd ⟨hlo, hhi⟩ hc
      rw [List.map_cons, List.cons.injEq, hletter,
        ih fun d' hd' => h d' (List.mem_cons_of_mem _ hd')]
      simp [Spells]

/-- Bytes are told apart where the condition first fails. -/
theorem while_append {p : UInt8 → Bool} {x y : Bytes} (hx : ∀ c ∈ x, p c = true)
    (hy : ∀ c ∈ y.head?, p c = false) :
    (x ++ y).takeWhile p = x ∧ (x ++ y).dropWhile p = y := by
  rw [List.takeWhile_append_of_pos hx, List.dropWhile_append_of_pos hx]
  cases y with
  | nil => exact ⟨List.append_nil x, rfl⟩
  | cons c y =>
    have hc : ¬p c = true := by simp [hy c rfl]
    rw [List.takeWhile_cons_of_neg hc, List.dropWhile_cons_of_neg hc, List.append_nil]
    exact ⟨rfl, rfl⟩

theorem exists_while (p : UInt8 → Bool) (b : Bytes) :
    ∃ x y, b = x ++ y ∧ (∀ c ∈ x, p c = true) ∧ ∀ c ∈ y.head?, p c = false := by
  refine ⟨b.takeWhile p, b.dropWhile p, List.takeWhile_append_dropWhile.symm,
    List.all_eq_true.1 List.all_takeWhile, ?_⟩
  intro c hc
  have hhead := List.head?_dropWhile_not p b
  rw [Option.mem_def.1 hc] at hhead
  exact hhead

theorem trim_eq : trim b = t ↔ Trimmed b t := by
  -- What is trimmed is what is left of it.
  have hleft : ∀ {t}, Trimmed b t → trim b = t := by
    rintro t ⟨x, y, rfl, hx, hy, hhead, hlast⟩
    have hy' : ∀ c ∈ y.reverse, isBlank c = true := by simpa using hy
    by_cases ht : t = []
    · subst ht
      have hall : ∀ c ∈ x ++ y, isBlank c = true := by
        intro c hc
        exact (List.mem_append.1 hc).elim (hx c) (hy c)
      have hnone := (while_append (y := []) hall (by simp)).2
      rw [List.append_nil] at hnone ⊢
      rw [trim, hnone]
      rfl
    · have hfront : ∀ c ∈ (t ++ y).head?, isBlank c = false := by
        rw [List.head?_append_of_ne_nil t ht]
        exact hhead
      have hback : ∀ c ∈ t.reverse.head?, isBlank c = false := by
        rw [List.head?_reverse]
        exact hlast
      rw [trim, List.append_assoc, (while_append hx hfront).2, List.reverse_append,
        (while_append hy' hback).2, List.reverse_reverse]
  -- And there always is something left, were it no byte at all.
  have hsome : ∃ t, Trimmed b t := by
    obtain ⟨x, m, rfl, hx, hhead⟩ := exists_while isBlank b
    obtain ⟨y, r, hm, hy, hlast⟩ := exists_while isBlank m.reverse
    obtain rfl : m = r.reverse ++ y.reverse := by
      rw [← List.reverse_append, ← hm, List.reverse_reverse]
    refine ⟨r.reverse, x, y.reverse, (List.append_assoc ..).symm, hx, by simpa using hy, ?_, ?_⟩
    · intro c hc
      refine hhead c ?_
      rw [List.head?_append, Option.mem_def.1 hc]
      rfl
    · rw [List.getLast?_reverse]
      exact hlast
  constructor
  · rintro rfl
    obtain ⟨t, ht⟩ := hsome
    rwa [hleft ht]
  · exact hleft

/-! ## Parts of a line -/

theorem parts_append (x z : Bytes) : parts (x ++ 0x20 :: z) = parts x ++ parts z := by
  rw [parts, List.splitOn, List.splitOnP_append_cons x z rfl, List.filter_append]
  rfl

theorem parts_space (line : Bytes) : parts (0x20 :: line) = parts line :=
  parts_append [] line

theorem parts_spaces {x : Bytes} (hx : ∀ c ∈ x, (c == 0x20) = true) (line : Bytes) :
    parts (x ++ line) = parts line := by
  induction x with
  | nil => rfl
  | cons c x ih =>
    obtain rfl : c = 0x20 := beq_iff_eq.1 (hx c List.mem_cons_self)
    rw [List.cons_append, parts_space, ih fun d hd => hx d (List.mem_cons_of_mem _ hd)]

theorem parts_word {word : Bytes} (hne : word ≠ []) (hword : ∀ c ∈ word, (c == 0x20) = false) :
    parts word = [word] := by
  rw [parts, List.splitOn, List.splitOnP_eq_singleton hword,
    List.filter_cons_of_pos (by simpa using hne), List.filter_nil]

/-- Taking off the first part, and what is left. -/
theorem part_parts (line : Bytes) :
    (part line).1 = (parts line).headD [] ∧ parts (part line).2 = (parts line).tail := by
  obtain ⟨x, m, rfl, hx, hm⟩ := exists_while (· == 0x20) line
  obtain ⟨word, rest, rfl, hword, hrest⟩ := exists_while (· != 0x20) m
  obtain ⟨htake, hdrop⟩ := while_append hword hrest
  have hword' : ∀ c ∈ word, (c == 0x20) = false := by
    intro c hc
    simpa using hword c hc
  rw [part, (while_append hx hm).2, parts_spaces hx, List.span_eq_takeWhile_dropWhile, htake, hdrop]
  cases rest with
  | nil =>
    rw [List.append_nil]
    by_cases hne : word = []
    · subst hne
      exact ⟨rfl, rfl⟩
    · rw [parts_word hne hword']
      exact ⟨rfl, rfl⟩
  | cons c rest =>
    obtain rfl : c = 0x20 := by simpa using hrest c rfl
    have hne : word ≠ [] := by
      rintro rfl
      exact absurd (hm 0x20 rfl) (by decide)
    rw [parts_append, parts_word hne hword', parts_space]
    exact ⟨rfl, rfl⟩

/-! ## The status line -/

/-- The line starts as a status line does, with this status. -/
def SaysStatus (line : Bytes) (status : Nat) : Prop :=
  ∃ version code more, parts line = version :: code :: more ∧
    "HTTP/1.".toUTF8.data.toList <+: version ∧ Decimal code status

/-- What is wrong with a line where the status has to say `200`. -/
inductive StatusOffence (line : Bytes) : UpdateError → Prop
  | other {status : UInt16} (hstatus : SaysStatus line status.toNat) (hne : status ≠ 200) :
      StatusOffence line (.httpStatus status)
  /-- There is no status, or none that 16 bits hold. -/
  | malformed (h : ∀ status, SaysStatus line status → UInt16.size ≤ status) :
      StatusOffence line .httpMalformed

theorem saysStatus_of_parts {version code : Bytes} {more : List Bytes} {status : Nat}
    (h : parts line = version :: code :: more) : SaysStatus line status ↔
      "HTTP/1.".toUTF8.data.toList <+: version ∧ Decimal code status := by
  constructor
  · rintro ⟨version', code', more', hparts, hstatus⟩
    rw [h] at hparts
    cases hparts
    exact hstatus
  · intro hstatus
    exact ⟨version, code, more, h, hstatus⟩

theorem saysStatus_iff {status : Nat} : SaysStatus line status ↔
    versionStart.isPrefixOf (part line).1 = true ∧
      number? (part (part line).2).1 = some status := by
  obtain ⟨hversion, hrest⟩ := part_parts line
  obtain ⟨hcode, _⟩ := part_parts (part line).2
  rw [hcode, hrest, hversion, List.isPrefixOf_iff_prefix, number?_eq_some]
  constructor
  · rintro ⟨version, code, more, hparts, hversion, hdecimal⟩
    rw [hparts]
    exact ⟨hversion, hdecimal⟩
  · rintro ⟨hversion, hdecimal⟩
    rcases hparts : parts line with _ | ⟨version, _ | ⟨code, more⟩⟩
    · rw [hparts] at hversion
      exact absurd (List.prefix_nil.1 hversion) (by decide)
    · rw [hparts] at hdecimal
      exact absurd rfl hdecimal.1
    · rw [hparts] at hversion hdecimal
      exact ⟨version, code, more, hparts, hversion, hdecimal⟩

theorem SaysStatus.det {status status' : Nat} (h : SaysStatus line status)
    (h' : SaysStatus line status') : status = status' :=
  Option.some.inj ((saysStatus_iff.1 h).2.symm.trans (saysStatus_iff.1 h').2)

theorem checkStatus_of_status {status : Nat} (h : SaysStatus line status) :
    checkStatus line = if UInt16.size ≤ status then .error .httpMalformed
      else if status = 200 then .ok () else .error (.httpStatus (.ofNat status)) := by
  obtain ⟨hversion, hnumber⟩ := saysStatus_iff.1 h
  simp only [checkStatus, hversion, hnumber]
  by_cases hsize : UInt16.size ≤ status
  · simp only [if_pos hsize]
    rfl
  · by_cases hok : status = 200
    · simp only [if_neg hsize, if_pos hok]
      rfl
    · simp only [if_neg hsize, if_neg hok]
      rfl

theorem checkStatus_of_none (h : ∀ status, ¬SaysStatus line status) :
    checkStatus line = .error .httpMalformed := by
  by_cases hversion : versionStart.isPrefixOf (part line).1 = true
  · have hnumber : number? (part (part line).2).1 = none := by
      rw [Option.eq_none_iff_forall_ne_some]
      intro status hstatus
      exact h status (saysStatus_iff.2 ⟨hversion, hstatus⟩)
    simp only [checkStatus, hversion, hnumber]
    rfl
  · simp only [checkStatus, if_neg hversion]
    rfl

theorem checkStatus_congr (h : ∀ status, SaysStatus x status ↔ SaysStatus y status) :
    checkStatus x = checkStatus y := by
  by_cases hx : ∃ status, SaysStatus x status
  · obtain ⟨status, hx⟩ := hx
    rw [checkStatus_of_status hx, checkStatus_of_status ((h status).1 hx)]
  · have hy : ∀ status, ¬SaysStatus y status := fun status hy => hx ⟨status, (h status).2 hy⟩
    rw [checkStatus_of_none (not_exists.1 hx), checkStatus_of_none hy]

theorem checkStatus_eq_ok : checkStatus line = .ok () ↔ SaysStatus line 200 := by
  constructor
  · intro hok
    by_cases h : ∃ status, SaysStatus line status
    · obtain ⟨status, h⟩ := h
      rw [checkStatus_of_status h] at hok
      split at hok
      · cases hok
      · split at hok
        · rename_i hstatus
          exact hstatus ▸ h
        · cases hok
    · rw [checkStatus_of_none (not_exists.1 h)] at hok
      cases hok
  · intro h
    rw [checkStatus_of_status h]
    rfl

theorem checkStatus_eq_error {e : UpdateError} :
    checkStatus line = .error e ↔ StatusOffence line e := by
  constructor
  · intro herror
    by_cases h : ∃ status, SaysStatus line status
    · obtain ⟨status, h⟩ := h
      rw [checkStatus_of_status h] at herror
      split at herror
      · rename_i hsize
        cases herror
        exact .malformed fun status' h' => h.det h' ▸ hsize
      · rename_i hsize
        have hstatus : (UInt16.ofNat status).toNat = status :=
          UInt16.toNat_ofNat_of_lt' (Nat.lt_of_not_le hsize)
        split at herror
        · cases herror
        · rename_i hne
          cases herror
          refine .other (by rwa [hstatus]) ?_
          intro heq
          rw [heq] at hstatus
          exact hne hstatus.symm
    · rw [checkStatus_of_none (not_exists.1 h)] at herror
      cases herror
      exact .malformed fun status hstatus => absurd ⟨status, hstatus⟩ h
  · intro h
    cases h with
    | @other status hstatus hne =>
      have hother : ¬status.toNat = 200 := fun heq => hne (UInt16.toNat.inj heq)
      rw [checkStatus_of_status hstatus, if_neg (Nat.not_le_of_lt status.toNat_lt_size),
        if_neg hother, UInt16.ofNat_toNat]
    | malformed hlarge =>
      by_cases h : ∃ status, SaysStatus line status
      · obtain ⟨status, h⟩ := h
        rw [checkStatus_of_status h, if_pos (hlarge status h)]
      · exact checkStatus_of_none (not_exists.1 h)

/-! ## The length header -/

/-- The line is a content-length header with this value, or what stands for one. -/
def HasLength (line value : Bytes) : Prop :=
  ∃ name after t, line = name ++ 0x3A :: after ∧ 0x3A ∉ name ∧ Trimmed name t ∧
    Spells "content-length".toUTF8.data.toList t ∧ Trimmed after value

/-- The line is a content-length header that gives this length. -/
def GivesLength (line : Bytes) (len : Word) : Prop :=
  ∃ value, HasLength line value ∧ Decimal value len.toNat

theorem HasLength.ne_nil {value : Bytes} (h : HasLength line value) : line ≠ [] := by
  obtain ⟨name, after, _, rfl, _⟩ := h
  simp

theorem span_colon {name : Bytes} (hname : 0x3A ∉ name) (after : Bytes) :
    (name ++ 0x3A :: after).span (· != 0x3A) = (name, 0x3A :: after) := by
  have hall : ∀ c ∈ name, (c != 0x3A) = true := by
    intro c hc
    simpa using ne_of_mem_of_not_mem hc hname
  obtain ⟨htake, hdrop⟩ := while_append (y := 0x3A :: after) hall (by simp)
  rw [List.span_eq_takeWhile_dropWhile, htake, hdrop]

theorem isName_iff {name : Bytes} : (trim name).map toLower = contentLength ↔
    ∃ t, Trimmed name t ∧ Spells "content-length".toUTF8.data.toList t := by
  have hlower : ∀ d ∈ contentLength, ¬(0x41 ≤ d ∧ d ≤ 0x5A) := by simp [contentLength]
  rw [map_toLower_eq hlower]
  constructor
  · intro h
    exact ⟨trim name, trim_eq.1 rfl, h⟩
  · rintro ⟨t, htrim, h⟩
    rw [trim_eq.2 htrim]
    exact h

theorem decimal_iff {value : Bytes} {len : Word} :
    (number? value).bind Word.ofNat? = some len ↔ Decimal value len.toNat := by
  rw [← number?_eq_some, Option.bind_eq_some_iff]
  constructor
  · rintro ⟨n, hn, hlen⟩
    rw [hn, Word.ofNat?_eq_some.1 hlen]
  · intro h
    exact ⟨_, h, Word.ofNat?_eq_some.2 rfl⟩

theorem contentLength?_of_has {value : Bytes} (h : HasLength line value) : contentLength? line =
    match (number? value).bind Word.ofNat? with
    | some len => .ok (some len)
    | none => .error .httpMalformed := by
  obtain ⟨name, after, t, rfl, hname, htrim, hspells, hvalue⟩ := h
  have hkey := isName_iff.2 ⟨t, htrim, hspells⟩
  simp only [contentLength?, span_colon hname, hkey, trim_eq.2 hvalue]
  rfl

theorem contentLength?_of_gives {len : Word} (h : GivesLength line len) :
    contentLength? line = .ok (some len) := by
  obtain ⟨value, hvalue, hdecimal⟩ := h
  rw [contentLength?_of_has hvalue, decimal_iff.2 hdecimal]

theorem contentLength?_of_other {value : Bytes} (h : HasLength line value)
    (hother : ∀ len : Word, ¬Decimal value len.toNat) :
    contentLength? line = .error .httpMalformed := by
  rw [contentLength?_of_has h]
  cases hlen : (number? value).bind Word.ofNat? with
  | none => rfl
  | some len => exact absurd (decimal_iff.1 hlen) (hother len)

theorem contentLength?_of_no_colon (h : 0x3A ∉ line) : contentLength? line = .ok none := by
  have hall : ∀ c ∈ line, (c != 0x3A) = true := by
    intro c hc
    simpa using ne_of_mem_of_not_mem hc h
  obtain ⟨htake, hdrop⟩ := while_append (y := []) hall (by simp)
  rw [List.append_nil] at htake hdrop
  rw [contentLength?, List.span_eq_takeWhile_dropWhile, htake, hdrop]

theorem contentLength?_of_not (h : ∀ value, ¬HasLength line value) :
    contentLength? line = .ok none := by
  by_cases hcolon : 0x3A ∈ line
  · obtain ⟨name, after, rfl, hname⟩ := List.eq_append_cons_of_mem hcolon
    have hkey : ¬(trim name).map toLower = contentLength := by
      intro hkey
      obtain ⟨t, htrim, hspells⟩ := isName_iff.1 hkey
      exact h (trim after) ⟨name, after, t, rfl, hname, htrim, hspells, trim_eq.1 rfl⟩
    simp only [contentLength?, span_colon hname, if_pos hkey]
  · exact contentLength?_of_no_colon hcolon

/-- Blanks at the end of a line make no difference. -/
theorem contentLength?_append (hy : ∀ c ∈ y, isBlank c = true) :
    contentLength? (x ++ y) = contentLength? x := by
  have hcolon : 0x3A ∉ y := fun hmem => absurd (hy _ hmem) (by decide)
  by_cases hx : 0x3A ∈ x
  · obtain ⟨name, after, rfl, hname⟩ := List.eq_append_cons_of_mem hx
    have htrim : trim (after ++ y) = trim after := by
      obtain ⟨before, behind, hafter, hbefore, hbehind, hends⟩ := trim_eq.1 (Eq.refl (trim after))
      refine trim_eq.2 ⟨before, behind ++ y, ?_, hbefore, ?_, hends⟩
      · rw [← List.append_assoc, ← hafter]
      · intro c hc
        exact (List.mem_append.1 hc).elim (hbehind c) (hy c)
    rw [List.append_assoc, List.cons_append]
    simp only [contentLength?, span_colon hname, htrim]
  · rw [contentLength?_of_no_colon hx, contentLength?_of_no_colon (by simp [hx, hcolon])]

theorem GivesLength.det {len len' : Word} (h : GivesLength line len) (h' : GivesLength line len') :
    len = len' := by
  have heq := (contentLength?_of_gives h).symm.trans (contentLength?_of_gives h')
  exact Option.some.inj (Except.ok.inj heq)

/-- A line gives a length, is about something else, or has a value that is no length. -/
theorem length_cases (line : Bytes) : (∃ len, GivesLength line len) ∨
    (∀ value, ¬HasLength line value) ∨
    ∃ value, HasLength line value ∧ ∀ len : Word, ¬Decimal value len.toNat := by
  by_cases h : ∃ value, HasLength line value
  · obtain ⟨value, h⟩ := h
    by_cases hlen : ∃ len : Word, Decimal value len.toNat
    · exact .inl (hlen.imp fun _ hdecimal => ⟨value, h, hdecimal⟩)
    · exact .inr (.inr ⟨value, h, not_exists.1 hlen⟩)
  · exact .inr (.inl (not_exists.1 h))

theorem contentLength?_eq_error {e : UpdateError} (h : contentLength? line = .error e) :
    e = .httpMalformed := by
  rcases length_cases line with ⟨len, hlen⟩ | hnot | ⟨value, hvalue, hother⟩
  · rw [contentLength?_of_gives hlen] at h
    cases h
  · rw [contentLength?_of_not hnot] at h
    cases h
  · rw [contentLength?_of_other hvalue hother] at h
    cases h
    rfl

end DualBank.Http
