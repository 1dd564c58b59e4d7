import DualBank.Proofs.Order
import DualBank.Proofs.Packing

/-! What a header block says, field by field, and to whom. The records of a block lie one behind the
other at the stride that its prologue states, and of several records of a kind the last one counts.
A reader finds just that, whatever follows the block, and misses all of it in a block cut short.
Over a connection the same is found, and no byte behind the block is taken. -/
namespace DualBank

theorem Word.at?_drop (b : Bytes) (pos n : Nat) :
    Word.at? (b.drop pos) n = Word.at? b (pos + n) := by
  unfold Word.at?
  rw [List.drop_drop]

theorem Word.le_length_of_at? {b : Bytes} {pos : Nat} {w : Word}
    (h : Word.at? b pos = some w) : pos + 4 ≤ b.length :=
  (Word.at?_eq_some.1 h).2

theorem mapError_eq_ok {ε ε' α : Type} {f : ε → ε'} {o : Except ε α} {v : α} :
    o.mapError f = .ok v ↔ o = .ok v := by
  cases o <;> simp [Except.mapError]

/-- The last element that qualifies is one that no later one follows. -/
theorem findRev?_eq_some {α : Type} {p : α → Bool} {as : List α} {a : α} :
    as.findRev? p = some a ↔ p a = true ∧
      ∃ i : Nat, as[i]? = some a ∧ ∀ (j : Nat) b, i < j → as[j]? = some b → p b = false := by
  rw [List.findRev?_eq_find?_reverse, List.find?_eq_some_iff_append]
  refine and_congr_right fun _ => ⟨fun h => ?_, fun h => ?_⟩
  · obtain ⟨xs, ys, heq, hxs⟩ := h
    obtain rfl : as = ys.reverse ++ a :: xs.reverse := by
      rw [← List.reverse_reverse as, heq]
      simp
    refine ⟨ys.reverse.length, by simp, ?_⟩
    intro j b hj hb
    obtain ⟨k, rfl⟩ := Nat.exists_eq_add_of_lt hj
    rw [List.getElem?_append_right (by omega), Nat.add_assoc, Nat.add_sub_cancel_left,
      List.getElem?_cons_succ] at hb
    simpa using hxs b (List.mem_reverse.1 (List.mem_of_getElem? hb))
  · obtain ⟨i, ha, hlater⟩ := h
    obtain ⟨hi, rfl⟩ := List.getElem?_eq_some_iff.1 ha
    refine ⟨(as.drop (i + 1)).reverse, (as.take i).reverse, ?_, ?_⟩
    · have hsplit : as.take i ++ as[i] :: as.drop (i + 1) = as := by simp
      conv_lhs => rw [← hsplit]
      simp
    · intro b hb
      obtain ⟨k, hk⟩ := List.mem_iff_getElem?.1 (List.mem_reverse.1 hb)
      rw [List.getElem?_drop] at hk
      simpa using hlater _ b (by omega) hk

namespace ImageHeader

/-- The fields of the record are in the bytes, from this position on. -/
structure StandsAt (b : Bytes) (pos : Nat) (h : ImageHeader) : Prop where
  tag : (b.drop pos).take 4 = h.tag.bytes
  headerLen : Word.at? b (pos + 4) = some h.headerLen
  checksum : Word.at? b (pos + 8) = some h.checksum
  imageLen : Word.at? b (pos + 12) = some h.imageLen
  offset : Word.at? b (pos + 16) = some h.offset
  flashAddress : Word.at? b (pos + 20) = some h.flashAddress

variable {b : Bytes} {pos n : Nat} {h : ImageHeader}

theorem exists_standsAt (hlen : pos + length ≤ b.length) : ∃ h, StandsAt b pos h := by
  simp only [length] at hlen
  have hword : ∀ n, n + 4 ≤ 24 → ∃ w, Word.at? b (pos + n) = some w := by
    intro n hn
    exact Bytes.at?_exists (by omega)
  obtain ⟨headerLen, hheaderLen⟩ := hword 4 (by decide)
  obtain ⟨checksum, hchecksum⟩ := hword 8 (by decide)
  obtain ⟨imageLen, himageLen⟩ := hword 12 (by decide)
  obtain ⟨offset, hoffset⟩ := hword 16 (by decide)
  obtain ⟨flashAddress, hflashAddress⟩ := hword 20 (by decide)
  have htag : ((b.drop pos).take 4).length = 4 := by
    rw [List.length_take, List.length_drop]
    omega
  obtain ⟨b₀, b₁, b₂, b₃, htag⟩ := List.length_eq_four.1 htag
  exact ⟨⟨⟨b₀, b₁, b₂, b₃⟩, headerLen, checksum, imageLen, offset, flashAddress⟩, htag, hheaderLen,
    hchecksum, himageLen, hoffset, hflashAddress⟩

theorem StandsAt.le_length (hs : StandsAt b pos h) : pos + length ≤ b.length :=
  Word.le_length_of_at? hs.flashAddress

/-- A record may be looked at from where it starts. -/
theorem standsAt_drop : StandsAt (b.drop n) pos h ↔ StandsAt b (n + pos) h := by
  constructor
  · intro hs
    obtain ⟨h₀, h₁, h₂, h₃, h₄, h₅⟩ := hs
    rw [List.drop_drop] at h₀
    rw [Word.at?_drop, ← Nat.add_assoc] at h₁ h₂ h₃ h₄ h₅
    exact ⟨h₀, h₁, h₂, h₃, h₄, h₅⟩
  · intro hs
    obtain ⟨h₀, h₁, h₂, h₃, h₄, h₅⟩ := hs
    rw [← List.drop_drop] at h₀
    rw [Nat.add_assoc, ← Word.at?_drop] at h₁ h₂ h₃ h₄ h₅
    exact ⟨h₀, h₁, h₂, h₃, h₄, h₅⟩

/-- What is behind a record is not part of it. -/
theorem StandsAt.take (hs : StandsAt b pos h) (hn : pos + length ≤ n) :
    StandsAt (b.take n) pos h := by
  simp only [length] at hn
  obtain ⟨h₀, h₁, h₂, h₃, h₄, h₅⟩ := hs
  refine ⟨?_, ?_, ?_, ?_, ?_, ?_⟩
  · rwa [List.drop_take, List.take_take, Nat.min_eq_left (by omega)]
  all_goals rwa [Bytes.at?_take (by omega)]

/-- The reader of a record finds its fields. -/
theorem StandsAt.decode (hs : StandsAt b 0 h) : decode b = .ok h := by
  have hlen := hs.le_length
  simp only [length] at hlen
  have htag : b.slice? 0 4 = some h.tag.bytes :=
    Bytes.slice?_eq_some.2 ⟨by decide, by omega, hs.tag.symm⟩
  have hheaderLen : Word.at? b 4 = some h.headerLen := hs.headerLen
  have hchecksum : Word.at? b 8 = some h.checksum := hs.checksum
  have himageLen : Word.at? b 12 = some h.imageLen := hs.imageLen
  have hoffset : Word.at? b 16 = some h.offset := hs.offset
  have haddress : Word.at? b 20 = some h.flashAddress := hs.flashAddress
  have hfields : decode? b = some h := by
    unfold decode?
    rw [htag, hheaderLen, hchecksum, himageLen, hoffset, haddress]
    rfl
  rw [ImageHeader.decode, hfields]

/-- Two records cannot be at one position. -/
theorem StandsAt.unique {h' : ImageHeader} (hs : StandsAt b pos h) (hs' : StandsAt b pos h') :
    h = h' := by
  rw [← Nat.add_zero pos, ← standsAt_drop] at hs hs'
  exact Except.ok.inj (hs.decode.symm.trans hs'.decode)

end ImageHeader

/-! ## Blocks -/

namespace Bytes

theorem length_pieces (size count : Nat) (b : Bytes) : (pieces size count b).length = count := by
  induction count generalizing b with
  | zero => rfl
  | succ count ih => rw [pieces, List.length_cons, ih]

theorem getElem_pieces {size count i : Nat} {b : Bytes} (h : i < (pieces size count b).length) :
    (pieces size count b)[i] = (b.drop (i * size)).take size := by
  induction count generalizing b i with
  | zero => cases h
  | succ count ih =>
    cases i with
    | zero => simp [pieces]
    | succ i =>
      simp only [pieces, List.getElem_cons_succ]
      rw [ih, List.drop_drop, Nat.succ_mul, Nat.add_comm]

end Bytes

namespace Prologue

/-- The words of the prologue are in the bytes. -/
structure Leads (p : Prologue) (b : Bytes) : Prop where
  version : Word.at? b 0 = some p.file.version
  headerCount : Word.at? b 4 = some p.file.headerCount
  recordLen : Word.at? b 12 = some p.recordLen

/-- There are records, and each has room for its fields. -/
def Sized (p : Prologue) : Prop :=
  p.file.headerCount.toNat ≠ 0 ∧ ImageHeader.length ≤ p.recordLen.toNat

instance (p : Prologue) : Decidable p.Sized := inferInstanceAs (Decidable (_ ∧ _))

/-- Length of the block that the words tell of, be it sized or not. -/
def extent (p : Prologue) : Nat :=
  p.file.headerCount.toNat * p.recordLen.toNat + FileHeader.length

/-- Where a record starts. -/
def recordAt (p : Prologue) (i : Nat) : Nat := FileHeader.length + i * p.recordLen.toNat

/-- The last record of a kind, if there is one. The kind is that of a position. -/
def Latest (p : Prologue) (b : Bytes) (kind : Nat → Prop) : Option ImageHeader → Prop
  | none => ∀ i < p.file.headerCount.toNat, ¬kind (p.recordAt i)
  | some h => ∃ i < p.file.headerCount.toNat, kind (p.recordAt i) ∧ h.StandsAt b (p.recordAt i) ∧
      ∀ j, i < j → j < p.file.headerCount.toNat → ¬kind (p.recordAt j)

/-- These are the records of the block, in their order. -/
structure Lists (p : Prologue) (b : Bytes) (hs : List ImageHeader) : Prop where
  length : hs.length = p.file.headerCount.toNat
  standsAt : ∀ (i : Nat) h, hs[i]? = some h → h.StandsAt b (p.recordAt i)

variable {p : Prologue} {b : Bytes} {hs : List ImageHeader}

/-- A machine word of 64 bits holds the length of any block. -/
theorem extent_lt (p : Prologue) : p.extent < UInt64.size := by
  have hcount := p.file.headerCount.toNat_lt_size
  have hrecord := p.recordLen.toNat_lt_size
  have hprod := Nat.mul_le_mul (Nat.le_sub_one_of_lt hcount) (Nat.le_sub_one_of_lt hrecord)
  refine Nat.lt_of_le_of_lt (Nat.add_le_add_right hprod _) ?_
  decide

theorem blockLen_of_sized (h : p.Sized) : p.blockLen = .ok p.extent := by
  rw [blockLen, headerBlockLen, if_neg, extent]
  rw [not_or, Nat.not_lt]
  exact h

theorem blockLen_of_not_sized (h : ¬p.Sized) : p.blockLen = .error .malformedHeader := by
  rw [blockLen, headerBlockLen, if_pos]
  by_contra hc
  rw [not_or, Nat.not_lt] at hc
  exact h hc

theorem Sized.length_le (h : p.Sized) : length ≤ p.extent :=
  (blockLen_eq_ok (blockLen_of_sized h)).1

theorem exists_leads (h : length ≤ b.length) : ∃ p : Prologue, p.Leads b := by
  simp only [length] at h
  have hword : ∀ n, n + 4 ≤ 16 → ∃ w, Word.at? b n = some w := by
    intro n hn
    exact Bytes.at?_exists (by omega)
  obtain ⟨version, hversion⟩ := hword 0 (by decide)
  obtain ⟨headerCount, hheaderCount⟩ := hword 4 (by decide)
  obtain ⟨recordLen, hrecordLen⟩ := hword 12 (by decide)
  exact ⟨⟨⟨version, headerCount⟩, recordLen⟩, hversion, hheaderCount, hrecordLen⟩

theorem Leads.length_le (h : p.Leads b) : length ≤ b.length :=
  Word.le_length_of_at? h.recordLen

theorem Leads.take (h : p.Leads b) {n : Nat} (hn : length ≤ n) : p.Leads (b.take n) := by
  simp only [length] at hn
  obtain ⟨hversion, hheaderCount, hrecordLen⟩ := h
  constructor
  all_goals rwa [Bytes.at?_take (by omega)]

/-- The prologue is refused only for what it says. -/
theorem Leads.decode (h : p.Leads b) : decode b = p.blockLen.map fun _ => p := by
  have hfile : FileHeader.decode b = .ok p.file := by
    rw [FileHeader.decode, h.version, h.headerCount]
  simp only [Prologue.decode, if_neg (Nat.not_lt.2 h.length_le), hfile, h.recordLen, bind,
    Except.bind]
  cases p.blockLen <;> rfl

theorem Leads.declared (h : p.Leads b) : declared b = p.blockLen := by
  rw [Prologue.declared, h.decode]
  cases hl : p.blockLen with
  | error e => rfl
  | ok d => exact hl

theorem length_le_of_declared {d : Nat} (h : Prologue.declared b = .ok d) :
    length ≤ b.length := by
  by_contra hshort
  rw [Prologue.declared, Prologue.decode, if_pos (Nat.lt_of_not_le hshort)] at h
  cases h

/-- A block that is there has all its records. -/
theorem exists_lists (hp : p.Sized) (hlen : p.extent ≤ b.length) : ∃ hs, p.Lists b hs := by
  have hrecord : ∀ i : Fin p.file.headerCount.toNat,
      ∃ h, ImageHeader.StandsAt b (p.recordAt i) h := by
    intro i
    have hbefore := Nat.mul_le_mul_right p.recordLen.toNat (Nat.succ_le_of_lt i.isLt)
    have hroom := hp.2
    rw [Nat.succ_mul] at hbefore
    refine ImageHeader.exists_standsAt ?_
    simp only [extent, recordAt] at hlen ⊢
    omega
  choose f hf using hrecord
  refine ⟨List.ofFn f, List.length_ofFn, ?_⟩
  intro i h hi
  rw [List.getElem?_ofFn] at hi
  split at hi
  · rename_i hcount
    cases hi
    exact hf ⟨i, hcount⟩
  · cases hi

/-- The records are the pieces that the block is cut into. -/
theorem Lists.decode (h : p.Lists b hs) (hp : p.Sized) :
    List.Forall₂ (fun record header => ImageHeader.decode record = .ok header)
      (Bytes.pieces p.recordLen.toNat p.file.headerCount.toNat (b.drop FileHeader.length)) hs := by
  refine List.forall₂_iff_get.2 ⟨?_, ?_⟩
  · rw [Bytes.length_pieces, h.length]
  · intro i hi hi'
    rw [List.get_eq_getElem, List.get_eq_getElem, Bytes.getElem_pieces]
    have hstands := h.standsAt i _ (List.getElem?_eq_getElem hi')
    rw [recordAt, ← ImageHeader.standsAt_drop, ← Nat.add_zero (i * _),
      ← ImageHeader.standsAt_drop] at hstands
    exact (hstands.take (by simpa using hp.2)).decode

theorem Lists.exists_getElem? (h : p.Lists b hs) {i : Nat} (hi : i < p.file.headerCount.toNat) :
    ∃ header, hs[i]? = some header := by
  rw [← h.length] at hi
  exact ⟨_, List.getElem?_eq_getElem hi⟩

theorem Lists.lt_headerCount (h : p.Lists b hs) {i : Nat} {header : ImageHeader}
    (hi : hs[i]? = some header) : i < p.file.headerCount.toNat := by
  rw [← h.length]
  exact (List.getElem?_eq_some_iff.1 hi).1

section
variable {kind : Nat → Prop} {q : ImageHeader → Bool}

theorem Lists.latest_none (h : p.Lists b hs)
    (hkind : ∀ pos h, ImageHeader.StandsAt b pos h → (kind pos ↔ q h = true)) :
    p.Latest b kind none ↔ hs.findRev? q = none := by
  rw [List.findRev?_eq_find?_reverse, List.find?_eq_none]
  constructor
  · intro hnone header hmem
    obtain ⟨i, hi⟩ := List.mem_iff_getElem?.1 (List.mem_reverse.1 hmem)
    rw [← hkind _ _ (h.standsAt i header hi)]
    exact hnone i (h.lt_headerCount hi)
  · intro hnone i hi hk
    obtain ⟨header, hheader⟩ := h.exists_getElem? hi
    refine hnone header (List.mem_reverse.2 (List.mem_of_getElem? hheader)) ?_
    rwa [← hkind _ _ (h.standsAt i header hheader)]

theorem Lists.latest_some (h : p.Lists b hs)
    (hkind : ∀ pos h, ImageHeader.StandsAt b pos h → (kind pos ↔ q h = true))
    (header : ImageHeader) : p.Latest b kind (some header) ↔ hs.findRev? q = some header := by
  rw [findRev?_eq_some]
  constructor
  · intro hlast
    obtain ⟨i, hi, hk, hstands, hlater⟩ := hlast
    obtain ⟨header', hheader'⟩ := h.exists_getElem? hi
    obtain rfl : header = header' := hstands.unique (h.standsAt i header' hheader')
    refine ⟨(hkind _ _ hstands).1 hk, i, hheader', ?_⟩
    intro j other hj hother
    rw [← Bool.not_eq_true, ← hkind _ _ (h.standsAt j other hother)]
    exact hlater j hj (h.lt_headerCount hother)
  · intro hfound
    obtain ⟨hq, i, hi, hlater⟩ := hfound
    have hstands := h.standsAt i header hi
    refine ⟨i, h.lt_headerCount hi, (hkind _ _ hstands).2 hq, hstands, ?_⟩
    intro j hj hcount hk
    obtain ⟨other, hother⟩ := h.exists_getElem? hcount
    have hno := hlater j other hj hother
    rw [(hkind _ _ (h.standsAt j other hother)).1 hk] at hno
    cases hno

/-- The last record of a kind is the last one in the list. -/
theorem Lists.latest_iff (h : p.Lists b hs)
    (hkind : ∀ pos h, ImageHeader.StandsAt b pos h → (kind pos ↔ q h = true))
    (o : Option ImageHeader) : p.Latest b kind o ↔ hs.findRev? q = o := by
  cases o with
  | none => exact h.latest_none hkind
  | some header => exact h.latest_some hkind header

end

end Prologue

/-! ## Reading a block -/

/-- The four bytes of a tag are at this position. -/
def Tag.StandsAt (t : Tag) (b : Bytes) (pos : Nat) : Prop := (b.drop pos).take 4 = t.bytes

/-- The three bytes that secondary tags share are at this position, in another tag than this. -/
def Tag.BesideAt (t : Tag) (b : Bytes) (pos : Nat) : Prop :=
  (b.drop pos).take 3 = [0x52, 0x44, 0x50] ∧ ¬t.StandsAt b pos

theorem Tag.bytes_inj {t t' : Tag} : t.bytes = t'.bytes ↔ t = t' := by
  constructor
  · intro h
    have hread := ofBytes?_bytes t
    rw [h, ofBytes?_bytes] at hread
    exact (Option.some.inj hread).symm
  · intro h
    rw [h]

theorem ImageHeader.StandsAt.tag_iff {b : Bytes} {pos : Nat} {h : ImageHeader}
    (hs : h.StandsAt b pos) (t : Tag) : t.StandsAt b pos ↔ h.tag = t := by
  rw [Tag.StandsAt, hs.tag, Tag.bytes_inj]

theorem ImageHeader.StandsAt.beside_iff {b : Bytes} {pos : Nat} {h : ImageHeader}
    (hs : h.StandsAt b pos) (t : Tag) :
    t.BesideAt b pos ↔ h.tag ≠ t ∧ h.tag.isSecondary = true := by
  have hthree : (b.drop pos).take 3 = h.tag.bytes.take 3 := by
    rw [← hs.tag, List.take_take, Nat.min_eq_left (by decide)]
  rw [Tag.BesideAt, hs.tag_iff, hthree, Tag.isSecondary, beq_iff_eq, and_comm]
  rfl

namespace TargetHeader

/-- What a block says to a reader who looks for a tag. -/
inductive Says (b : Bytes) (wanted : Tag) : Except ContainerError TargetHeader → Prop
  | short (h : b.length < Prologue.length) :
      Says b wanted (.error (.headerIncomplete Prologue.length b.length))
  | malformed {p : Prologue} (hp : p.Leads b) (h : ¬p.Sized) :
      Says b wanted (.error .malformedHeader)
  | cut {p : Prologue} (hp : p.Leads b) (hs : p.Sized) (h : b.length < p.extent) :
      Says b wanted (.error (.headerIncomplete p.extent b.length))
  | unmatched {p : Prologue} (hp : p.Leads b) (hs : p.Sized) (h : p.extent ≤ b.length)
      (hprimary : p.Latest b (wanted.StandsAt b) none) : Says b wanted (.error .noMatchingImage)
  | found {p : Prologue} {primary : ImageHeader} {secondary : Option ImageHeader} (hp : p.Leads b)
      (hs : p.Sized) (h : p.extent ≤ b.length)
      (hprimary : p.Latest b (wanted.StandsAt b) (some primary))
      (hsecondary : p.Latest b (wanted.BesideAt b) secondary) :
      Says b wanted (.ok ⟨p.file, p.recordLen, primary, secondary⟩)

variable {p : Prologue} {b : Bytes} {wanted : Tag}

theorem parse_of_short (h : b.length < Prologue.length) :
    parse b wanted = .error (.headerIncomplete Prologue.length b.length) := by
  rw [parse, Prologue.decode, if_pos h]
  rfl

theorem parse_of_not_sized (hp : p.Leads b) (hs : ¬p.Sized) :
    parse b wanted = .error .malformedHeader := by
  rw [parse, hp.decode, Prologue.blockLen_of_not_sized hs]
  rfl

theorem parse_of_cut (hp : p.Leads b) (hs : p.Sized) (h : b.length < p.extent) :
    parse b wanted = .error (.headerIncomplete p.extent b.length) := by
  simp only [parse, hp.decode, Prologue.blockLen_of_sized hs, Except.map, bind, Except.bind,
    if_pos h]
  rfl

/-- In a block that is there the last records that count are found. -/
theorem parse_of_lists (hp : p.Leads b) (hs : p.Sized) (h : p.extent ≤ b.length)
    {headers : List ImageHeader} (hl : p.Lists b headers) : parse b wanted =
      match headers.findRev? (·.tag = wanted) with
      | none => .error .noMatchingImage
      | some primary => .ok ⟨p.file, p.recordLen, primary,
          headers.findRev? fun header => header.tag ≠ wanted && header.tag.isSecondary⟩ := by
  simp only [parse, hp.decode, Prologue.blockLen_of_sized hs, Except.map, bind, Except.bind,
    if_neg (Nat.not_lt.2 h), scan_decoded (hl.decode hs), foldl_see, Option.or_none, pure,
    Except.pure]
  cases headers.findRev? (·.tag = wanted) <;> rfl

theorem latest_primary {headers : List ImageHeader} (hl : p.Lists b headers)
    (o : Option ImageHeader) :
    p.Latest b (wanted.StandsAt b) o ↔ headers.findRev? (·.tag = wanted) = o := by
  refine hl.latest_iff (fun pos h hstands => ?_) o
  rw [hstands.tag_iff, decide_eq_true_iff]

theorem latest_secondary {headers : List ImageHeader} (hl : p.Lists b headers)
    (o : Option ImageHeader) : p.Latest b (wanted.BesideAt b) o ↔
      (headers.findRev? fun header => header.tag ≠ wanted && header.tag.isSecondary) = o := by
  refine hl.latest_iff (fun pos h hstands => ?_) o
  rw [hstands.beside_iff, Bool.and_eq_true, decide_eq_true_iff]

/-- A reader finds what the block says, and nothing else. -/
theorem parse_eq_iff (b : Bytes) (wanted : Tag) (o : Except ContainerError TargetHeader) :
    parse b wanted = o ↔ Says b wanted o := by
  constructor
  · intro ho
    subst ho
    by_cases hshort : b.length < Prologue.length
    · rw [parse_of_short hshort]
      exact .short hshort
    · obtain ⟨p, hp⟩ := Prologue.exists_leads (Nat.le_of_not_lt hshort)
      by_cases hs : p.Sized
      · by_cases hcut : b.length < p.extent
        · rw [parse_of_cut hp hs hcut]
          exact .cut hp hs hcut
        · have h := Nat.le_of_not_lt hcut
          obtain ⟨headers, hl⟩ := Prologue.exists_lists hs h
          rw [parse_of_lists hp hs h hl]
          cases hfound : headers.findRev? (·.tag = wanted) with
          | none => exact .unmatched hp hs h ((latest_primary hl _).2 hfound)
          | some primary =>
            exact .found hp hs h ((latest_primary hl _).2 hfound) ((latest_secondary hl _).2 rfl)
      · rw [parse_of_not_sized hp hs]
        exact .malformed hp hs
  · intro hsaid
    cases hsaid with
    | short h => exact parse_of_short h
    | malformed hp hs => exact parse_of_not_sized hp hs
    | cut hp hs h => exact parse_of_cut hp hs h
    | unmatched hp hs h hprimary =>
      obtain ⟨headers, hl⟩ := Prologue.exists_lists hs h
      rw [parse_of_lists hp hs h hl, (latest_primary hl _).1 hprimary]
    | found hp hs h hprimary hsecondary =>
      obtain ⟨headers, hl⟩ := Prologue.exists_lists hs h
      rw [parse_of_lists hp hs h hl, (latest_primary hl _).1 hprimary,
        (latest_secondary hl _).1 hsecondary]

theorem parse_append (hp : p.Leads b) (hs : p.Sized) (h : p.extent ≤ b.length) (rest : Bytes) :
    parse (b ++ rest) wanted = parse b wanted := by
  have hdeclared : Prologue.declared b = .ok p.extent :=
    hp.declared.trans (Prologue.blockLen_of_sized hs)
  have hcut : (b ++ rest).take p.extent = b.take p.extent := List.take_append_of_le_length h
  have hlong : Prologue.length ≤ (b ++ rest).length := by
    rw [List.length_append]
    exact Nat.le_trans hp.length_le (Nat.le_add_right _ _)
  have hdeclared' : Prologue.declared (b ++ rest) = .ok p.extent := by
    rw [← Prologue.declared_take hs.length_le hlong, hcut,
      Prologue.declared_take hs.length_le hp.length_le, hdeclared]
  rw [← parse_take hdeclared' hlong, hcut, parse_take hdeclared hp.length_le]

/-- A prefix tells how much of the block it lacks, once it has the prologue. -/
theorem parse_prefix (hp : p.Leads b) (hs : p.Sized) (h : p.extent ≤ b.length) {n : Nat}
    (hn : n < p.extent) : parse (b.take n) wanted =
      .error (.headerIncomplete (if n < Prologue.length then Prologue.length else p.extent) n) := by
  have hlen : (b.take n).length = n := List.length_take_of_le (by omega)
  split
  · rename_i hshort
    rw [parse_of_short (by rwa [hlen]), hlen]
  · rename_i hlong
    rw [parse_of_cut (hp.take (Nat.le_of_not_lt hlong)) hs (by rwa [hlen]), hlen]

/-- Reading a header block is exact. A block that is there is read alike whatever follows it, no
prefix of it is read as anything, and each of its records is. -/
theorem parse_exact (b : Bytes) (wanted : Tag) :
    (∀ o, parse b wanted = o ↔ Says b wanted o) ∧
    ∀ p : Prologue, p.Leads b → p.extent < UInt64.size ∧ (p.Sized → p.extent ≤ b.length →
      (∀ rest, parse (b ++ rest) wanted = parse b wanted) ∧
      (∀ n < p.extent, parse (b.take n) wanted = .error
        (.headerIncomplete (if n < Prologue.length then Prologue.length else p.extent) n)) ∧
      ∀ record ∈ Bytes.pieces p.recordLen.toNat p.file.headerCount.toNat
        (b.drop FileHeader.length), ∃ header, ImageHeader.decode record = .ok header) := by
  refine ⟨parse_eq_iff b wanted, fun p hp => ⟨p.extent_lt, fun hs h => ?_⟩⟩
  refine ⟨parse_append hp hs h, fun n hn => parse_prefix hp hs h hn, fun record hrecord => ?_⟩
  obtain ⟨headers, hl⟩ := Prologue.exists_lists hs h
  obtain ⟨i, hi, rfl⟩ := List.mem_iff_getElem.1 hrecord
  have hdecode := hl.decode hs
  exact ⟨_, hdecode.get hi (hdecode.length_eq ▸ hi)⟩

end TargetHeader

/-! Three padded records. The tag that is looked for is itself like that of a secondary image, and
two of the records have it. -/
namespace Sample

def patch : Tag := ⟨0x52, 0x44, 0x50, 0x41⟩

def second : ImageHeader := ⟨.rdp, 26, 7, 4, 86, 0x2000⟩

def third : ImageHeader := ⟨patch, 26, 5, 9, 90, 0x1000⟩

def prologue : Prologue := ⟨⟨1, 3⟩, 26⟩

def block : Bytes :=
  prologue.file.bytes ++
    [⟨patch, 26, 1, 2, 99, 0⟩, second, third].flatMap (ImageHeader.padded 26)

end Sample

theorem TargetHeader.parse_exact_sample :
    Sample.prologue.Leads Sample.block ∧ Sample.prologue.Sized ∧
    Sample.prologue.extent = Sample.block.length ∧
    Says Sample.block Sample.patch (.ok ⟨⟨1, 3⟩, 26, Sample.third, some Sample.second⟩) ∧
    (∀ rest, parse (Sample.block ++ rest) Sample.patch =
      .ok ⟨⟨1, 3⟩, 26, Sample.third, some Sample.second⟩) ∧
    parse (Sample.block.take 85) Sample.patch = .error (.headerIncomplete 86 85) := by
  have hp : Sample.prologue.Leads Sample.block := ⟨rfl, rfl, rfl⟩
  have hs : Sample.prologue.Sized := by decide
  have hparse : parse Sample.block Sample.patch =
      .ok ⟨⟨1, 3⟩, 26, Sample.third, some Sample.second⟩ := rfl
  obtain ⟨hsaid, hblock⟩ := parse_exact Sample.block Sample.patch
  obtain ⟨happend, hprefix, _⟩ := (hblock Sample.prologue hp).2 hs (Nat.le_refl _)
  refine ⟨hp, hs, rfl, (hsaid _).1 hparse, fun rest => ?_, hprefix 85 (by decide)⟩
  rw [happend, hparse]

/-! ## Over a connection -/

namespace Rig

/-- What was received is read as all of the bytes would be. -/
theorem headerBlock_reads {capacity : Nat} {C : Bytes} (hroom : RoomFor capacity C) (wanted : Tag) :
    (headerBlock capacity C >>= fun block =>
      (TargetHeader.parse block wanted).mapError UpdateError.ofContainer) =
      (TargetHeader.parse C wanted).mapError UpdateError.ofContainer := by
  rw [headerBlock, if_neg (Nat.not_lt.2 hroom.1)]
  by_cases hshort : C.length < Prologue.length
  · rw [if_pos hshort, TargetHeader.parse_of_short hshort]
    rfl
  · rw [if_neg hshort]
    have hlong := Nat.le_of_not_lt hshort
    obtain ⟨p, hp⟩ := Prologue.exists_leads hlong
    by_cases hs : p.Sized
    · have hdeclared := hp.declared.trans (Prologue.blockLen_of_sized hs)
      rw [hdeclared]
      dsimp only
      rw [if_neg (Nat.not_lt.2 (hroom.2 _ hdeclared)), ← TargetHeader.parse_take hdeclared hlong]
      rfl
    · rw [hp.declared, Prologue.blockLen_of_not_sized hs, TargetHeader.parse_of_not_sized hp hs]
      rfl

variable {σ : Type} [Link σ]

/-- Receives a header block, and finds the images for a tag in it. -/
def receiveTarget (wanted : Tag) : Action σ TargetHeader := do
  let block ← receiveHeader
  MonadExcept.ofExcept ((TargetHeader.parse block wanted).mapError UpdateError.ofContainer)

/-- Receiving a header block and reading it comes to the same as reading all that the connection
brings, unless the block has no room in the buffer. Behind the block nothing is taken. -/
theorem receiveTarget_reads {r : Rig σ} {C : Bytes} (hserves : Link.Serves r.link C)
    (hroom : Prologue.length ≤ r.buffer.length) (wanted : Tag) :
    (∀ d, Prologue.declared C = .ok d → r.buffer.length < d →
      Ends receiveHeader r fun o _ => o = .error .headerTooLarge) ∧
    ((∀ d, Prologue.declared C = .ok d → d ≤ r.buffer.length) →
      Ends (receiveTarget wanted) r fun o r' =>
        o = (TargetHeader.parse C wanted).mapError UpdateError.ofContainer ∧
        ∀ t, o = .ok t → ∃ d, Prologue.declared C = .ok d ∧ d ≤ C.length ∧
          ∀ rest, Link.Serves r'.link rest ↔ rest = C.drop d) := by
  have hreceived := receiveHeader_ends hserves
  constructor
  · intro d hd hlarge
    refine hreceived.mono fun o r' hread => ?_
    rw [hread.1, headerBlock, if_neg (Nat.not_lt.2 hroom),
      if_neg (Nat.not_lt.2 (Prologue.length_le_of_declared hd)), hd]
    exact if_pos hlarge
  · intro hfits
    have hreads := headerBlock_reads ⟨hroom, hfits⟩ wanted
    refine hreceived.bind (fun block r₁ hread => ?_) fun e r₁ hread => ?_
    · obtain ⟨ho, _, _, hnext⟩ := hread
      rw [← ho] at hreads
      refine Ends.ofExcept ⟨hreads, fun t ht => ?_⟩
      have hparse := mapError_eq_ok.1 (hreads.symm.trans ht)
      obtain ⟨d, hd, _, hlen⟩ := TargetHeader.blockLen_of_parse hparse
      have hbehind := hnext rfl d hd
      refine ⟨d, hd, hlen, fun rest => ⟨fun hrest => hrest.unique hbehind, fun hrest => ?_⟩⟩
      rw [hrest]
      exact hbehind
    · obtain ⟨ho, _⟩ := hread
      rw [← ho] at hreads
      refine ⟨hreads, fun t ht => ?_⟩
      cases ht

/-- The same connection, first with a buffer that just holds the block, then with one that does
not. -/
theorem receiveTarget_reads_sample :
    Link.Serves (Sample.rig (Sample.block ++ [1, 2])).link (Sample.block ++ [1, 2]) ∧
    Ends (receiveTarget Sample.patch)
      { Sample.rig (Sample.block ++ [1, 2]) with buffer := List.replicate 86 0 } (fun o r' =>
        o = .ok ⟨⟨1, 3⟩, 26, Sample.third, some Sample.second⟩ ∧
        ∀ rest, Link.Serves r'.link rest ↔ rest = [1, 2]) ∧
    Ends receiveHeader
      { Sample.rig (Sample.block ++ [1, 2]) with buffer := List.replicate 85 0 } fun o _ =>
        o = .error .headerTooLarge := by
  have hserves : Link.Serves (Sample.rig (Sample.block ++ [1, 2])).link (Sample.block ++ [1, 2]) :=
    Scripted.serves (by simp [Sample.rig]) rfl
  have hdeclared : Prologue.declared (Sample.block ++ [1, 2]) = .ok 86 := rfl
  refine ⟨hserves, ?_, ?_⟩
  · obtain ⟨_, hreads⟩ := receiveTarget_reads
      (r := { Sample.rig (Sample.block ++ [1, 2]) with buffer := List.replicate 86 0 }) hserves
      (by decide) Sample.patch
    refine (hreads fun d hd => ?_).mono fun o r' hread => ?_
    · cases hdeclared.symm.trans hd
      decide
    · obtain ⟨ho, hnext⟩ := hread
      obtain ⟨d, hd, _, hrest⟩ := hnext _ ho
      cases hdeclared.symm.trans hd
      exact ⟨ho, hrest⟩
  · exact (receiveTarget_reads
      (r := { Sample.rig (Sample.block ++ [1, 2]) with buffer := List.replicate 85 0 }) hserves
      (by decide) Sample.patch).1 86 hdeclared (by decide)

end Rig
end DualBank
