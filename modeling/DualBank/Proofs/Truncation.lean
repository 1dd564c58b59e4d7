import DualBank.Proofs.Grammar

/-! Lines that are longer than what is kept of them. A reader that keeps everything finds the same
in a response whose lines say the same without their tails. That is so for most long lines, but not
for every line that is looked at: a content length may lose its last digits. -/
namespace DualBank.Http

variable {R line x y : Bytes}

/-! ## What is kept of a long line -/

theorem stripped_cases (line : Bytes) :
    stripped line = line ∨ line = stripped line ++ [0x0D] := by
  unfold stripped
  split
  · rename_i hlast
    exact .inr (List.dropLast_append_getLast? _ hlast).symm
  · exact .inl rfl

theorem stripped_eq_nil : stripped line = [] ↔ line = [] ∨ line = [0x0D] := by
  constructor
  · intro h
    rcases stripped_cases line with hsame | hcut
    · exact .inl (hsame.symm.trans h)
    · rw [h] at hcut
      exact .inr hcut
  · rintro (rfl | rfl) <;> rfl

/-- Only what follows a byte is stripped of its carriage return. -/
theorem stripped_append {c : UInt8} (hc : c ≠ 0x0D) (x y : Bytes) :
    ∃ z, stripped (x ++ c :: y) = x ++ c :: z := by
  rcases stripped_cases (x ++ c :: y) with hsame | hcut
  · exact ⟨y, hsame⟩
  · rcases List.eq_nil_or_concat' y with rfl | ⟨z, d, rfl⟩
    · obtain ⟨_, hlast⟩ := List.append_inj' hcut rfl
      cases hlast
      exact absurd rfl hc
    · have hsnoc : stripped (x ++ c :: (z ++ [d])) ++ [0x0D] = x ++ c :: z ++ [d] := by
        rw [← hcut, List.append_assoc]
        rfl
      exact ⟨z, (List.append_inj' hsnoc rfl).1⟩

/-- A line with nothing on it is one however much is kept. -/
theorem kept_eq_nil {bound : Option Nat} (hbound : ∀ most ∈ bound, 1 < most) :
    kept bound line = [] ↔ line = [] ∨ line = [0x0D] := by
  rw [kept, stripped_eq_nil]
  cases bound with
  | none => rfl
  | some most =>
    have hmost := hbound most rfl
    rcases line with _ | ⟨c, _ | ⟨d, line⟩⟩
    · simp [cut]
    · rw [cut, List.take_of_length_le (by simp; omega)]
    · obtain ⟨n, rfl⟩ := Nat.exists_eq_add_of_le' hmost
      simp [cut]

theorem contentLength?_stripped (line : Bytes) :
    contentLength? (stripped line) = contentLength? line := by
  rcases stripped_cases line with hsame | hcut
  · rw [hsame]
  · have hblank : ∀ c ∈ [0x0D], isBlank c = true := by simp [isBlank]
    have heq := contentLength?_append (x := stripped line) hblank
    rw [← hcut] at heq
    exact heq.symm

namespace Head

/-! ## Heads that say the same without their tails -/

/-- The status is the same without the tail of the line. -/
def StatusKept (line : Bytes) : Prop :=
  checkStatus (kept (some lineMax) line) = checkStatus (kept none line)

/-- So is the content length, or that there is none. -/
def FieldKept (line : Bytes) : Prop :=
  contentLength? (kept (some lineMax) line) = contentLength? (kept none line)

instance : DecidablePred StatusKept := fun _ => inferInstanceAs (Decidable (_ = _))

instance : DecidablePred FieldKept := fun _ => inferInstanceAs (Decidable (_ = _))

/-- The first line of the head meets one condition, and each of its other lines meets another. -/
structure Each (S F : Bytes → Prop) (R : Bytes) : Prop where
  status : ∀ first ∈ (lines R).head?, S first
  fields : ∀ line ∈ (lines R).tail.takeWhile (kept none · ≠ []), F line

/-- No line of the head says anything else without its tail. -/
def Unharmed (R : Bytes) : Prop := Each StatusKept FieldKept R

theorem kept_lineMax : kept (some lineMax) line = [] ↔ kept none line = [] := by
  rw [kept_eq_nil (by decide), kept_eq_nil (by decide)]

theorem split_fields_unharmed {fields : List Bytes} {last : Bytes} {len : Option Word}
    (hlines : ∀ line ∈ fields, 0x0A ∉ line) (hlast : 0x0A ∉ last)
    (h : ∀ line ∈ fields.takeWhile (kept none · ≠ []), FieldKept line) :
    split (some lineMax) ⟨true, [], len⟩ (text fields ++ last) =
      split none ⟨true, [], len⟩ (text fields ++ last) := by
  induction fields generalizing len with
  | nil =>
    change split _ _ last = split _ _ last
    rw [split_unended hlast, split_unended hlast]
  | cons line fields ih =>
    obtain ⟨hline, hlines⟩ := List.forall_mem_cons.1 hlines
    rw [text_cons]
    by_cases hempty : kept none line = []
    · rw [split_empty hline hempty, split_empty hline (kept_lineMax.2 hempty)]
    · rw [List.takeWhile_cons_of_pos (by simpa using hempty), List.forall_mem_cons] at h
      obtain ⟨hkept, h⟩ := h
      rw [split_field hline hempty, split_field hline (mt kept_lineMax.1 hempty), hkept]
      cases contentLength? (kept none line) with
      | error e => rfl
      | ok found => exact ih hlines h

theorem Unharmed.split (h : Unharmed R) :
    Head.split (some lineMax) {} R = Head.split none {} R := by
  obtain ⟨hstatus, hfields⟩ := h
  obtain ⟨last, heq, hlast, hlines⟩ := exists_lines R
  generalize lines R = all at heq hstatus hfields hlines
  subst heq
  cases all with
  | nil =>
    change Head.split _ _ last = Head.split _ _ last
    rw [split_unended hlast, split_unended hlast]
  | cons first fields =>
    obtain ⟨hfirst, hlines⟩ := List.forall_mem_cons.1 hlines
    rw [text_cons, split_status hfirst, split_status hfirst, hstatus first rfl]
    cases checkStatus (kept none first) with
    | error e => rfl
    | ok => exact split_fields_unharmed hlines hlast hfields

/-! ## Tails that take nothing with them -/

theorem cut_append (hx : x.length ≤ lineMax) (y : Bytes) :
    cut (some lineMax) (x ++ y) = x ++ y.take (lineMax - x.length) := by
  rw [cut, List.take_append, List.take_of_length_le hx]

theorem kept_prefix (bound : Option Nat) (line : Bytes) : ∃ w, line = kept bound line ++ w := by
  have hcut : ∃ w, line = cut bound line ++ w := by
    cases bound with
    | none => exact ⟨[], (List.append_nil line).symm⟩
    | some most => exact ⟨line.drop most, (List.take_append_drop most line).symm⟩
  obtain ⟨w, hw⟩ := hcut
  rcases stripped_cases (cut bound line) with hsame | hstripped
  · exact ⟨w, by rwa [kept, hsame]⟩
  · rw [hstripped, List.append_assoc] at hw
    exact ⟨_, hw⟩

/-- A status line that fits is kept as it is. -/
theorem statusKept_of_short (h : line.length ≤ lineMax) : StatusKept line := by
  rw [StatusKept, kept, cut, List.take_of_length_le h]
  rfl

/-- A status line may be of any length, if its status has been kept. -/
theorem statusKept_of_parts (hx : x.length < lineMax) (hparts : 2 ≤ (parts x).length) (y : Bytes) :
    StatusKept (x ++ 0x20 :: y) := by
  obtain ⟨k, hk⟩ := Nat.exists_eq_add_of_lt hx
  have hcut : cut (some lineMax) (x ++ 0x20 :: y) = x ++ 0x20 :: y.take k := by
    rw [cut_append (Nat.le_of_lt hx), hk, Nat.add_assoc, Nat.add_sub_cancel_left,
      List.take_succ_cons]
  obtain ⟨z, hz⟩ := stripped_append (c := 0x20) (by decide) x (y.take k)
  obtain ⟨z', hz'⟩ := stripped_append (c := 0x20) (by decide) x y
  rcases hx : parts x with _ | ⟨version, _ | ⟨code, more⟩⟩
  · simp [hx] at hparts
  · simp [hx] at hparts
  · have hstatus : ∀ z status, SaysStatus (x ++ 0x20 :: z) status ↔
        "HTTP/1.".toUTF8.data.toList <+: version ∧ Decimal code status := by
      intro z status
      have hline : parts (x ++ 0x20 :: z) = version :: code :: (more ++ parts z) := by
        rw [parts_append, hx]
        rfl
      exact saysStatus_of_parts hline
    rw [StatusKept, kept, hcut, hz, kept, cut, hz']
    exact checkStatus_congr fun status => (hstatus z status).trans (hstatus z' status).symm

/-- So may a header line, if only blanks are lost of it. -/
theorem fieldKept_of_blanks (hx : x.length ≤ lineMax) (hy : ∀ c ∈ y, isBlank c = true) :
    FieldKept (x ++ y) := by
  have hlost : ∀ c ∈ y.take (lineMax - x.length), isBlank c = true :=
    fun c hc => hy c (List.mem_of_mem_take hc)
  rw [FieldKept, kept, kept, contentLength?_stripped, contentLength?_stripped, cut_append hx,
    contentLength?_append hlost]
  exact (contentLength?_append hy).symm

/-- So may a line that is not about the content length at all. -/
theorem fieldKept_of_other (h : ∀ value, ¬HasLength (kept none line) value) : FieldKept line := by
  have hcut : ∀ value, ¬HasLength (kept (some lineMax) line) value := by
    rintro value ⟨name, after, t, hkept, hname, htrim, hspells, _⟩
    obtain ⟨w, hw⟩ := kept_prefix (some lineMax) line
    obtain ⟨z, hz⟩ := stripped_append (c := 0x3A) (by decide) name (after ++ w)
    refine h (trim z) ⟨name, z, t, ?_, hname, htrim, hspells, trim_eq.1 rfl⟩
    rw [← hz, kept, cut, hw, hkept, List.append_assoc]
    rfl
  rw [FieldKept, contentLength?_of_not h, contentLength?_of_not hcut]

/-- A head is unharmed if each long line of it goes on only after its status, or in blanks, or is
not about the content length. -/
theorem Unharmed.of_lines
    (hstatus : ∀ first ∈ (lines R).head?, first.length ≤ lineMax ∨
      ∃ x y, first = x ++ 0x20 :: y ∧ x.length < lineMax ∧ 2 ≤ (parts x).length)
    (hfields : ∀ line ∈ (lines R).tail, (∀ value, ¬HasLength (kept none line) value) ∨
      ∃ x y, line = x ++ y ∧ x.length ≤ lineMax ∧ ∀ c ∈ y, isBlank c = true) : Unharmed R where
  status first hfirst := by
    obtain hshort | ⟨x, y, rfl, hx, hparts⟩ := hstatus first hfirst
    · exact statusKept_of_short hshort
    · exact statusKept_of_parts hx hparts y
  fields line hline := by
    obtain hother | ⟨x, y, rfl, hx, hy⟩ := hfields line (List.takeWhile_subset _ hline)
    · exact fieldKept_of_other hother
    · exact fieldKept_of_blanks hx hy

/-! ## Tails that are missed -/

def statusLine : Bytes := "HTTP/1.0 200".toUTF8.data.toList

/-- A header line for a length of one digit. -/
def lengthLine (len : Word) : Bytes := "Content-Length:".toUTF8.data.toList ++ [0x30 + len.toUInt8]

/-- What comes of a line, where the one before it gave a length. -/
def settle (before : Word) : Except UpdateError (Option Word) → Except UpdateError (Word × Bytes)
  | .error e => .error e
  | .ok found =>
    if found.getD before = 0 then .error .httpMissingLength else .ok (found.getD before, [])

theorem settle_inj {a b : Except UpdateError (Option Word)} (hone : settle 1 a = settle 1 b)
    (htwo : settle 2 a = settle 2 b) (ha : a ≠ .error .httpMissingLength)
    (hb : b ≠ .error .httpMissingLength) : a = b := by
  rcases a with e | _ | n <;> rcases b with e' | _ | n' <;> grind [settle]

theorem split_settle {bound : Option Nat} (hbound : bound = some lineMax ∨ bound = none)
    {before : Word} (hbefore : before = 1 ∨ before = 2) (hline : 0x0A ∉ line)
    (hsome : kept bound line ≠ []) :
    split bound {} (text [statusLine, lengthLine before, line, []]) =
      settle before (contentLength? (kept bound line)) := by
  have htext : text [statusLine, lengthLine before, line, []] = statusLine ++ 0x0A ::
      (lengthLine before ++ 0x0A :: (line ++ 0x0A :: ([] ++ 0x0A :: []))) := by simp [text]
  have hstatus : checkStatus (kept bound statusLine) = .ok () := by
    rcases hbound with rfl | rfl <;> decide +kernel
  have hlength : contentLength? (kept bound (lengthLine before)) = .ok (some before) := by
    rcases hbound with rfl | rfl <;> rcases hbefore with rfl | rfl <;> decide +kernel
  have hlines : 0x0A ∉ statusLine ∧ 0x0A ∉ lengthLine before ∧
      kept bound (lengthLine before) ≠ [] := by
    rcases hbound with rfl | rfl <;> rcases hbefore with rfl | rfl <;> decide +kernel
  rw [htext, split_status hlines.1, hstatus]
  dsimp only
  rw [split_field hlines.2.1 hlines.2.2, hlength]
  dsimp only
  rw [split_field hline hsome]
  cases contentLength? (kept bound line) with
  | error e => rfl
  | ok found =>
    have hempty : kept bound [] = [] := by rcases hbound with rfl | rfl <;> rfl
    dsimp only
    rw [split_empty (by simp) hempty]
    cases found <;> rfl

/-- A status line says the same without its tail, if a response that ends with it does. -/
theorem statusKept_of_split (hline : 0x0A ∉ line)
    (h : split (some lineMax) {} (text [line]) = split none {} (text [line])) :
    StatusKept line := by
  have hopen : ∀ b, checkStatus b ≠ .error .streamTruncated :=
    fun b hb => nomatch checkStatus_eq_error.1 hb
  have htext : text [line] = line ++ 0x0A :: [] := by simp [text]
  rw [htext, split_status hline, split_status hline, split_unended (by simp),
    split_unended (by simp)] at h
  have hcut := hopen (kept (some lineMax) line)
  have hwhole := hopen (kept none line)
  unfold StatusKept
  cases hx : checkStatus (kept (some lineMax) line) <;>
    cases hy : checkStatus (kept none line) <;> simp_all

/-- So does a header line, if responses do that give one length or another before it. -/
theorem fieldKept_of_split (hline : 0x0A ∉ line)
    (h : ∀ before, before = 1 ∨ before = 2 →
      split (some lineMax) {} (text [statusLine, lengthLine before, line, []]) =
        split none {} (text [statusLine, lengthLine before, line, []])) : FieldKept line := by
  by_cases hempty : kept none line = []
  · rw [FieldKept, kept_lineMax.2 hempty, hempty]
  · have hmalformed : ∀ b, contentLength? b ≠ .error .httpMissingLength :=
      fun b hb => nomatch contentLength?_eq_error hb
    have hsettle : ∀ before, before = 1 ∨ before = 2 →
        settle before (contentLength? (kept (some lineMax) line)) =
          settle before (contentLength? (kept none line)) := by
      intro before hbefore
      rw [← split_settle (.inl rfl) hbefore hline (mt kept_lineMax.1 hempty),
        ← split_settle (.inr rfl) hbefore hline hempty]
      exact h before hbefore
    -- Whichever length came before it, the line says the same, so it says the same at all.
    exact settle_inj (hsettle 1 (.inl rfl)) (hsettle 2 (.inr rfl)) (hmalformed _) (hmalformed _)

theorem each_status {S F : Bytes → Prop} (hline : 0x0A ∉ line) (h : S line) :
    Each S F (text [line]) := by
  have hlines : lines (text [line]) = [line] := lines_text (by simpa using hline)
  constructor
  · simpa [hlines] using h
  · simp [hlines]

theorem each_field {S F : Bytes → Prop}
    (hfits : ∀ line : Bytes, line.length ≤ lineMax → S line ∧ F line) {before : Word}
    (hbefore : before = 1 ∨ before = 2) (hline : 0x0A ∉ line) (h : F line) :
    Each S F (text [statusLine, lengthLine before, line, []]) := by
  have hlength : 0x0A ∉ lengthLine before ∧ (lengthLine before).length ≤ lineMax := by
    rcases hbefore with rfl | rfl <;> decide
  have hlines : lines (text [statusLine, lengthLine before, line, []]) =
      [statusLine, lengthLine before, line, []] := by
    have hstatus : 0x0A ∉ statusLine := by decide
    exact lines_text (by simp [hstatus, hlength, hline])
  constructor
  · rw [hlines]
    simpa using (hfits statusLine (by decide)).1
  · rw [hlines]
    intro other hother
    have hmem := List.takeWhile_subset _ hother
    simp only [List.tail_cons, List.mem_cons, List.not_mem_nil, or_false] at hmem
    obtain rfl | rfl | rfl := hmem
    · exact (hfits _ hlength.2).2
    · exact h
    · exact (hfits [] (Nat.zero_le _)).2

/-- No weaker condition on the lines will do. Take any that is met by lines short enough to be kept.
The heads whose lines meet it all read the same without the tails, if and only if all of them are
unharmed. -/
theorem unharmed_weakest {S F : Bytes → Prop}
    (hfits : ∀ line : Bytes, line.length ≤ lineMax → S line ∧ F line) :
    (∀ R, Each S F R → split (some lineMax) {} R = split none {} R) ↔
      ∀ R, Each S F R → Unharmed R := by
  refine ⟨fun h R hR => ?_, fun h R hR => (h R hR).split⟩
  obtain ⟨_, _, _, hlines⟩ := exists_lines R
  constructor
  · intro first hfirst
    have hline := hlines first (List.mem_of_mem_head? hfirst)
    exact statusKept_of_split hline (h _ (each_status hline (hR.status first hfirst)))
  · intro line hfield
    have hline := hlines line (List.mem_of_mem_tail (List.takeWhile_subset _ hfield))
    exact fieldKept_of_split hline fun before hbefore =>
      h _ (each_field hfits hbefore hline (hR.fields line hfield))

end Head

/-- A reader that loses the tails of long lines finds what one that keeps them finds, however the
response comes, where no line says anything else without its tail. -/
theorem readHead_unharmed {σ τ : Type} [FiniteLink σ] [FiniteLink τ] {s : σ} {t : τ} {R : Bytes}
    (h : Head.Unharmed R) (hs : Link.Serves s R) (ht : Link.Serves t R) : ∃ found,
    Finds found (readHead (some Head.lineMax) {} (List.replicate scratchLen 0) s) ∧
      Finds found (readHead none {} (List.replicate scratchLen 0) t) := by
  refine ⟨Head.split none {} R, ?_, readHead_finds ht List.length_replicate⟩
  rw [← h.split]
  exact readHead_finds hs List.length_replicate

theorem Finds.length {σ : Type} [Link σ] {found : Except UpdateError (Word × Bytes)}
    {a : Answer UpdateError σ (Word × Bytes)} (h : Finds found a) :
    a.result.map Prod.fst = found.map Prod.fst := by
  cases h <;> rfl

namespace Sample

/-- A long line that is not about the content length, before one that is. -/
def chatty : Bytes :=
  "HTTP/1.1 200 OK\r\nServer: ".toUTF8.data.toList ++ List.replicate 150 0x78 ++
    "\r\nContent-Length: 12\r\n\r\nabcdefghijkl".toUTF8.data.toList

/-- The same length behind so many blanks that its second digit is lost. -/
def padded : Bytes :=
  "HTTP/1.1 200 OK\r\nContent-Length:".toUTF8.data.toList ++ List.replicate 112 0x20 ++
    "12\r\n\r\nabcdefghijkl".toUTF8.data.toList

theorem unharmed_chatty : Head.Unharmed chatty := ⟨by decide +kernel, by decide +kernel⟩

end Sample

theorem readHead_unharmed_sample : Head.Unharmed Sample.chatty ∧
    Link.Serves (Sample.server Sample.chatty) Sample.chatty ∧ ∃ found,
      Finds found (readHead (some Head.lineMax) {} (List.replicate scratchLen 0)
        (Sample.server Sample.chatty)) ∧
      Finds found (readHead none {} (List.replicate scratchLen 0)
        (Sample.server Sample.chatty)) := by
  have hserves := Sample.server_serves Sample.chatty
  exact ⟨Sample.unharmed_chatty, hserves,
    readHead_unharmed Sample.unharmed_chatty hserves hserves⟩

/-- The head says `12`. What is kept of it says `1`. -/
theorem Body.lost_tail_changes_length :
    (Body.head { link := Sample.server Sample.padded }).result = .ok 1 ∧
    (readHead none {} (List.replicate scratchLen 0) (Sample.server Sample.padded)).result.map
      Prod.fst = .ok 12 := by
  have hserves := Sample.server_serves Sample.padded
  have hcut : (Head.split (some Head.lineMax) {} Sample.padded).map Prod.fst = .ok 1 := by
    decide +kernel
  have hwhole : (Head.split none {} Sample.padded).map Prod.fst = .ok 12 := by decide +kernel
  constructor
  · exact (Body.head_serves hserves).1.trans hcut
  · exact (readHead_finds hserves List.length_replicate).length.trans hwhole

end DualBank.Http
