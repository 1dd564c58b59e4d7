import DualBank.Proofs.Lines
import DualBank.Proofs.Wording

/-! The grammar of a head. A response is accepted if lines of the right kinds lead up to an empty
one, and refused at the first line that is not of the right kind. Every response is one or the
other, and its head is read to that effect. -/
namespace DualBank.Http

namespace Head

variable {bound : Option Nat} {first line : Bytes} {fields : List Bytes} {R rest : Bytes}

/-! ## What is accepted, and what is refused -/

/-- A header line. If it is one for the content length, its value has to be a word. -/
structure Field (bound : Option Nat) (line : Bytes) : Prop where
  oneLine : 0x0A ∉ line
  nonempty : kept bound line ≠ []
  length : ∀ value, HasLength (kept bound line) value → ∃ len : Word, Decimal value len.toNat

/-- A head as far as nothing is wrong with it: a status line, and header lines. -/
structure Opening (bound : Option Nat) (first : Bytes) (fields : List Bytes) : Prop where
  oneLine : 0x0A ∉ first
  status : SaysStatus (kept bound first) 200
  fields : ∀ line ∈ fields, Field bound line

/-- The last of the lines for the content length gives this one. -/
def Announced (bound : Option Nat) (fields : List Bytes) (len : Word) : Prop :=
  ∃ before line after, fields = before ++ line :: after ∧ GivesLength (kept bound line) len ∧
    ∀ later ∈ after, ∀ value, ¬HasLength (kept bound later) value

/-- A head that an empty line ends, and the bytes after it. -/
def Accepts (bound : Option Nat) (R : Bytes) (len : Word) (rest : Bytes) : Prop :=
  ∃ first fields blank, Opening bound first fields ∧ 0x0A ∉ blank ∧ kept bound blank = [] ∧
    R = text (first :: fields) ++ (blank ++ 0x0A :: rest) ∧ Announced bound fields len ∧ len ≠ 0

/-- The first thing that is wrong with a response. -/
inductive Refuses (bound : Option Nat) : Bytes → UpdateError → Prop
  | status {first rest : Bytes} {e : UpdateError} (hline : 0x0A ∉ first)
      (hoffence : StatusOffence (kept bound first) e) : Refuses bound (first ++ 0x0A :: rest) e
  | length {first line value rest : Bytes} {fields : List Bytes}
      (hopening : Opening bound first fields) (hline : 0x0A ∉ line)
      (hlength : HasLength (kept bound line) value)
      (hoffence : ∀ len : Word, ¬Decimal value len.toNat) :
      Refuses bound (text (first :: fields) ++ (line ++ 0x0A :: rest)) .httpMalformed
  | missing {first blank rest : Bytes} {fields : List Bytes}
      (hopening : Opening bound first fields) (hline : 0x0A ∉ blank)
      (hempty : kept bound blank = []) (hoffence : ∀ len, Announced bound fields len → len = 0) :
      Refuses bound (text (first :: fields) ++ (blank ++ 0x0A :: rest)) .httpMissingLength
  | noStatus {R : Bytes} (hended : 0x0A ∉ R) : Refuses bound R .streamTruncated
  | unended {first rest : Bytes} {fields : List Bytes} (hopening : Opening bound first fields)
      (hended : 0x0A ∉ rest) : Refuses bound (text (first :: fields) ++ rest) .streamTruncated

/-! ## Reading along the grammar -/

theorem announced_nil (len : Word) : ¬Announced bound [] len := by
  rintro ⟨before, line, after, hfields, _⟩
  simp at hfields

/-- The last line either gives the length or leaves it to the lines before it. -/
theorem announced_snoc {len : Word} : Announced bound (fields ++ [line]) len ↔
    GivesLength (kept bound line) len ∨
      (∀ value, ¬HasLength (kept bound line) value) ∧ Announced bound fields len := by
  constructor
  · rintro ⟨before, line', after, hfields, hlen, hafter⟩
    rcases List.eq_nil_or_concat' after with rfl | ⟨after, last, rfl⟩
    · obtain ⟨_, hline⟩ := List.append_inj' hfields rfl
      cases hline
      exact .inl hlen
    · rw [← List.cons_append, ← List.append_assoc] at hfields
      obtain ⟨rfl, hline⟩ := List.append_inj' hfields rfl
      cases hline
      refine .inr ⟨hafter line (by simp), before, line', after, rfl, hlen, ?_⟩
      intro later hlater
      exact hafter later (List.mem_append_left _ hlater)
  · rintro (hlen | ⟨hnot, before, line', after, rfl, hlen, hafter⟩)
    · exact ⟨fields, line, [], rfl, hlen, fun _ hmem => nomatch hmem⟩
    · refine ⟨before, line', after ++ [line], by simp, hlen, ?_⟩
      intro later hlater
      rcases List.mem_append.1 hlater with hlater | hlater
      · exact hafter later hlater
      · obtain rfl := List.mem_singleton.1 hlater
        exact hnot

theorem announced_gives {len n : Word} (h : GivesLength (kept bound line) len) :
    Announced bound (fields ++ [line]) n ↔ len = n := by
  rw [announced_snoc]
  constructor
  · rintro (hn | ⟨hnot, _⟩)
    · exact h.det hn
    · obtain ⟨value, hvalue, _⟩ := h
      exact absurd hvalue (hnot value)
  · rintro rfl
    exact .inl h

theorem announced_other {n : Word} (h : ∀ value, ¬HasLength (kept bound line) value) :
    Announced bound (fields ++ [line]) n ↔ Announced bound fields n := by
  rw [announced_snoc]
  constructor
  · rintro (⟨value, hvalue, _⟩ | ⟨_, hn⟩)
    · exact absurd hvalue (h value)
    · exact hn
  · intro hn
    exact .inr ⟨h, hn⟩

/-- Header lines are read one after the other, and the last length is kept. -/
theorem split_fields (hfields : ∀ line ∈ fields, Field bound line) :
    ∃ len : Option Word, (∀ n, Announced bound fields n ↔ len = some n) ∧
      ∀ rest, split bound ⟨true, [], none⟩ (text fields ++ rest) =
        split bound ⟨true, [], len⟩ rest := by
  induction fields using List.reverseRecOn with
  | nil => exact ⟨none, fun n => by simp [announced_nil], fun rest => rfl⟩
  | append_singleton fields line ih =>
    obtain ⟨len, hlen, hsplit⟩ := ih fun l hl => hfields l (List.mem_append_left _ hl)
    have hline := hfields line (by simp)
    rcases length_cases (kept bound line) with ⟨n, hn⟩ | hnot | ⟨value, hvalue, hother⟩
    · refine ⟨some n, fun n' => ?_, fun rest => ?_⟩
      · rw [announced_gives hn, Option.some_inj]
      · rw [text_snoc, hsplit, split_field hline.oneLine hline.nonempty, contentLength?_of_gives hn]
        rfl
    · refine ⟨len, fun n => ?_, fun rest => ?_⟩
      · rw [announced_other hnot, hlen]
      · rw [text_snoc, hsplit, split_field hline.oneLine hline.nonempty, contentLength?_of_not hnot]
        rfl
    · obtain ⟨n, hn⟩ := hline.length value hvalue
      exact absurd hn (hother n)

theorem Opening.snoc (h : Opening bound first fields) (hline : Field bound line) :
    Opening bound first (fields ++ [line]) := by
  refine ⟨h.oneLine, h.status, ?_⟩
  intro l hl
  rcases List.mem_append.1 hl with hl | hl
  · exact h.fields l hl
  · obtain rfl := List.mem_singleton.1 hl
    exact hline

theorem Opening.split (h : Opening bound first fields) :
    ∃ len : Option Word, (∀ n, Announced bound fields n ↔ len = some n) ∧
      ∀ rest, Head.split bound {} (text (first :: fields) ++ rest) =
        Head.split bound ⟨true, [], len⟩ rest := by
  obtain ⟨len, hlen, hsplit⟩ := split_fields h.fields
  refine ⟨len, hlen, fun rest => ?_⟩
  rw [text_cons, split_status h.oneLine, checkStatus_eq_ok.2 h.status]
  exact hsplit rest

theorem Accepts.length_pos {len : Word} (h : Accepts bound R len rest) : 0 < len.toNat := by
  obtain ⟨_, _, _, _, _, _, _, _, hzero⟩ := h
  exact Nat.pos_of_ne_zero fun hnone => hzero (UInt32.toNat.inj hnone)

theorem Accepts.split {len : Word} (h : Accepts bound R len rest) :
    Head.split bound {} R = .ok (len, rest) := by
  obtain ⟨first, fields, blank, hopening, hblank, hempty, rfl, hlen, hzero⟩ := h
  obtain ⟨found, hfound, hsplit⟩ := hopening.split
  rw [hsplit, (hfound len).1 hlen, split_empty hblank hempty]
  exact if_neg hzero

theorem Refuses.split {e : UpdateError} (h : Refuses bound R e) :
    Head.split bound {} R = .error e := by
  cases h with
  | status hline hoffence => rw [split_status hline, checkStatus_eq_error.2 hoffence]
  | length hopening hline hlength hoffence =>
    obtain ⟨found, _, hsplit⟩ := hopening.split
    rw [hsplit, split_field hline hlength.ne_nil, contentLength?_of_other hlength hoffence]
  | missing hopening hline hempty hoffence =>
    obtain ⟨found, hfound, hsplit⟩ := hopening.split
    rw [hsplit, split_empty hline hempty]
    cases found with
    | none => rfl
    | some len => exact if_pos (hoffence len ((hfound len).2 rfl))
  | noStatus hended => exact split_unended hended
  | unended hopening hended =>
    obtain ⟨found, _, hsplit⟩ := hopening.split
    rw [hsplit, split_unended hended]

/-! ## Every response is one or the other -/

/-- Behind an opening, the next line decides or is one more header line. -/
theorem Opening.accepts_or_refuses {more : List Bytes} {last : Bytes}
    (h : Opening bound first fields) (hmore : ∀ line ∈ more, 0x0A ∉ line) (hlast : 0x0A ∉ last) :
    (∃ len rest, Accepts bound (text (first :: fields) ++ (text more ++ last)) len rest) ∨
      ∃ e, Refuses bound (text (first :: fields) ++ (text more ++ last)) e := by
  induction more generalizing fields with
  | nil => exact .inr ⟨_, .unended h hlast⟩
  | cons line more ih =>
    obtain ⟨hline, hmore⟩ := List.forall_mem_cons.1 hmore
    rw [text_cons line more last]
    by_cases hempty : kept bound line = []
    · by_cases hannounced : ∃ len, Announced bound fields len ∧ len ≠ 0
      · obtain ⟨len, hannounced⟩ := hannounced
        exact .inl ⟨len, _, first, fields, line, h, hline, hempty, rfl, hannounced⟩
      · refine .inr ⟨_, .missing h hline hempty ?_⟩
        intro len hlen
        exact Decidable.byContradiction fun hzero => hannounced ⟨len, hlen, hzero⟩
    · by_cases hother : ∃ value, HasLength (kept bound line) value ∧
          ∀ len : Word, ¬Decimal value len.toNat
      · obtain ⟨value, hvalue, hother⟩ := hother
        exact .inr ⟨_, .length h hline hvalue hother⟩
      · have hfield : Field bound line := by
          refine ⟨hline, hempty, ?_⟩
          intro value hvalue
          exact Classical.not_forall_not.1 fun hnone => hother ⟨value, hvalue, hnone⟩
        have hrest := ih (h.snoc hfield) hmore
        rwa [← List.cons_append, text_snoc] at hrest

theorem accepts_or_refuses (bound : Option Nat) (R : Bytes) :
    (∃ len rest, Accepts bound R len rest) ∨ ∃ e, Refuses bound R e := by
  obtain ⟨last, heq, hlast, hlines⟩ := exists_lines R
  generalize lines R = all at heq hlines
  subst heq
  cases all with
  | nil => exact .inr ⟨_, .noStatus hlast⟩
  | cons first more =>
    obtain ⟨hline, hmore⟩ := List.forall_mem_cons.1 hlines
    cases hstatus : checkStatus (kept bound first) with
    | error e =>
      rw [text_cons]
      exact .inr ⟨e, .status hline (checkStatus_eq_error.1 hstatus)⟩
    | ok =>
      have hopening : Opening bound first [] :=
        ⟨hline, checkStatus_eq_ok.1 hstatus, fun _ hmem => nomatch hmem⟩
      have hrest := hopening.accepts_or_refuses hmore hlast
      rwa [text_cons] at hrest ⊢

theorem split_eq_ok_iff {len : Word} :
    split bound {} R = .ok (len, rest) ↔ Accepts bound R len rest := by
  constructor
  · intro hsplit
    rcases accepts_or_refuses bound R with ⟨len', rest', h⟩ | ⟨e, h⟩
    · have heq := hsplit.symm.trans h.split
      cases heq
      exact h
    · rw [h.split] at hsplit
      cases hsplit
  · exact Accepts.split

theorem split_eq_error_iff {e : UpdateError} :
    split bound {} R = .error e ↔ Refuses bound R e := by
  constructor
  · intro hsplit
    rcases accepts_or_refuses bound R with ⟨len, rest, h⟩ | ⟨e', h⟩
    · rw [h.split] at hsplit
      cases hsplit
    · have heq := hsplit.symm.trans h.split
      cases heq
      exact h
  · exact Refuses.split

theorem map_fst_eq_ok {o : Except UpdateError (Word × Bytes)} {len : Word} :
    o.map Prod.fst = .ok len ↔ ∃ rest, o = .ok (len, rest) := by
  cases o with
  | error e => simp [Except.map]
  | ok found => simp [Except.map, Prod.ext_iff]

end Head

/-- The head of a body is read if the response is accepted, to the length that is announced, and
fails with what the response is refused for. -/
theorem Body.head_grammar {σ : Type} [FiniteLink σ] {s : σ} {R : Bytes} (hs : Link.Serves s R) :
    (∀ len, (Body.head { link := s }).result = .ok len ↔
      ∃ rest, Head.Accepts (some Head.lineMax) R len rest) ∧
    ∀ e, (Body.head { link := s }).result = .error e ↔ Head.Refuses (some Head.lineMax) R e := by
  rw [(Body.head_serves hs).1]
  constructor
  · intro len
    simp only [← Head.split_eq_ok_iff]
    exact Head.map_fst_eq_ok
  · intro e
    rw [← Head.split_eq_error_iff]
    cases Head.split (some Head.lineMax) {} R <;> simp [Except.map]

namespace Sample

/-- A server that sends the bytes in portions of its own. -/
def server (R : Bytes) : Scripted := { data := R, script := [.serve 3, .serve 40, .serve 1] }

theorem server_serves (R : Bytes) : Link.Serves (server R) R :=
  Scripted.serves (by simp [server]) rfl

def response : Bytes :=
  "HTTP/1.0 200\r\nServer: x\r\nCONTENT-LENGTH:  3 \r\n\r\nabcd".toUTF8.data.toList

def notFound : Bytes := "HTTP/1.1  404 Not Found\r\n\r\n".toUTF8.data.toList

end Sample

theorem Body.head_grammar_sample :
    (∃ rest, Head.Accepts (some Head.lineMax) Sample.response 3 rest) ∧
      Head.Refuses (some Head.lineMax) Sample.notFound (.httpStatus 404) := by
  have hok : (Head.split (some Head.lineMax) {} Sample.response).map Prod.fst = .ok 3 := by
    decide +kernel
  have herror : (Head.split (some Head.lineMax) {} Sample.notFound).map Prod.fst =
      .error (.httpStatus 404) := by decide +kernel
  have hresponse := Sample.server_serves Sample.response
  have hnotFound := Sample.server_serves Sample.notFound
  constructor
  · exact ((Body.head_grammar hresponse).1 3).1 ((Body.head_serves hresponse).1.trans hok)
  · exact ((Body.head_grammar hnotFound).2 _).1 ((Body.head_serves hnotFound).1.trans herror)

end DualBank.Http
