import DualBank.Proofs.Changes
import DualBank.Proofs.Delivery

/-! Payloads in pieces. Writes carry the payloads of some images if the payload of each is cut into
pieces, which go to flash one right after the other, and each byte of it once. Flash that is erased
where the images go accepts them, however the payloads are cut. -/
namespace DualBank

namespace Placement

/-- Pieces of the payload, each with the address of its first byte. There are `done` bytes of the
payload before them. -/
def pieces (p : Placement) (done : Nat) : List Bytes → List (Nat × Bytes)
  | [] => []
  | b :: bs => (p.destination.toNat + done, b) :: p.pieces (done + b.length) bs

theorem pieces_append (p : Placement) (done : Nat) (bs bs' : List Bytes) :
    p.pieces done (bs ++ bs') = p.pieces done bs ++ p.pieces (done + bs.flatten.length) bs' := by
  induction bs generalizing done with
  | nil => rfl
  | cons b bs ih =>
    rw [List.cons_append, pieces, pieces, ih, List.flatten_cons, List.length_append, Nat.add_assoc,
      List.cons_append]

/-- The payload bytes up to a position of the stream lead the payload. -/
theorem payloadUpTo_prefix {p : Placement} {q : Nat} (hq : q ≤ p.streamStop) (D : Bytes) :
    ∃ rest, p.payloadOf D = p.payloadUpTo D q ++ rest := by
  refine ⟨((D.drop p.payloadStart).drop (q - p.payloadStart)).take
    (p.payloadLen.toNat - (q - p.payloadStart)), ?_⟩
  have hle : q - p.payloadStart ≤ p.payloadLen.toNat := by
    simp only [streamStop, span, payloadStart] at hq ⊢
    omega
  rw [payloadOf, payloadUpTo, ← List.take_add, Nat.add_sub_cancel' hle]

/-- The stream has nothing for an image that starts past its end. -/
theorem payloadOf_eq_nil {p : Placement} {D : Bytes} (h : D.length ≤ p.streamOffset.toNat) :
    p.payloadOf D = [] := by
  rw [payloadOf, List.drop_eq_nil_of_le, List.take_nil]
  simp only [payloadStart]
  omega

/-- The stream has all of an image that it reaches to the end of. -/
theorem length_payloadOf_of_le {p : Placement} {D : Bytes}
    (h : p.span = 0 ∨ p.streamStop ≤ D.length) : (p.payloadOf D).length = p.payloadLen.toNat := by
  rw [payloadOf, List.length_take, List.length_drop]
  simp only [streamStop, span, payloadStart] at h ⊢
  omega

theorem length_signatureOf_of_le {p : Placement} {D : Bytes}
    (h : p.span = 0 ∨ p.streamStop ≤ D.length) :
    (p.signatureOf D).length = p.signatureLen.toNat := by
  rw [signatureOf, List.length_take, List.length_drop]
  simp only [streamStop, span] at h
  omega

end Placement

/-- The writes that carry the payloads of some images, one image after the other. The pieces of a
payload are not empty and make up what the stream has of it. -/
inductive Plan.Carried (D : Bytes) : List Placement → List (Nat × Bytes) → Prop
  | nil : Carried D [] []
  | cons {p : Placement} {ps : List Placement} {bs : List Bytes} {ws : List (Nat × Bytes)}
      (hne : ∀ b ∈ bs, b ≠ []) (hbs : bs.flatten = p.payloadOf D) (h : Carried D ps ws) :
      Carried D (p :: ps) (p.pieces 0 bs ++ ws)

namespace Plan.Carried

variable {D : Bytes} {p : Placement} {ps ps' : List Placement} {ws ws' : List (Nat × Bytes)}
  {bs : List Bytes}

theorem append (h : Carried D ps ws) (h' : Carried D ps' ws') :
    Carried D (ps ++ ps') (ws ++ ws') := by
  induction h with
  | nil => exact h'
  | cons hne hbs _ ih =>
    rw [List.append_assoc]
    exact .cons hne hbs ih

theorem snoc (h : Carried D ps ws) (hne : ∀ b ∈ bs, b ≠ []) (hbs : bs.flatten = p.payloadOf D) :
    Carried D (ps ++ [p]) (ws ++ p.pieces 0 bs) := by
  have hlast : Carried D [p] (p.pieces 0 bs ++ []) := .cons hne hbs .nil
  rw [List.append_nil] at hlast
  exact h.append hlast

/-- One piece for each payload will do. -/
theorem exists_whole (D : Bytes) (ps : List Placement) : ∃ ws, Carried D ps ws := by
  induction ps with
  | nil => exact ⟨[], .nil⟩
  | cons p ps ih =>
    obtain ⟨ws, hws⟩ := ih
    by_cases hnil : p.payloadOf D = []
    · have hcarried : Carried D (p :: ps) (p.pieces 0 [] ++ ws) := .cons (by simp) hnil.symm hws
      exact ⟨_, hcarried⟩
    · have hcarried : Carried D (p :: ps) (p.pieces 0 [p.payloadOf D] ++ ws) :=
        .cons (by simpa using hnil) (by simp) hws
      exact ⟨_, hcarried⟩

/-- Whatever was written of a payload, there is a way to write the rest. -/
theorem exists_rest (h : Carried D ps ws) (hne : ∀ b ∈ bs, b ≠ [])
    (hbs : ∃ rest, p.payloadOf D = bs.flatten ++ rest) (ps' : List Placement) :
    ∃ ws', Carried D (ps ++ p :: ps') (ws ++ p.pieces 0 bs ++ ws') := by
  obtain ⟨later, hlater⟩ := exists_whole D ps'
  obtain ⟨rest, hrest⟩ := hbs
  by_cases hnil : rest = []
  · rw [hnil, List.append_nil] at hrest
    refine ⟨later, ?_⟩
    rw [List.append_cons]
    exact (h.snoc hne hrest.symm).append hlater
  · have hwhole : Carried D (ps ++ [p]) (ws ++ p.pieces 0 (bs ++ [rest])) := by
      refine h.snoc (fun b hb => ?_) ?_
      · rcases List.mem_append.1 hb with hb | hb
        · exact hne b hb
        · exact List.mem_singleton.1 hb ▸ hnil
      · rw [List.flatten_append, hrest, List.flatten_singleton]
    refine ⟨p.pieces (0 + bs.flatten.length) [rest] ++ later, ?_⟩
    rw [List.append_cons, ← List.append_assoc, List.append_assoc ws, ← p.pieces_append]
    exact hwhole.append hlater

/-- Nothing is written for images that the stream has nothing for. -/
theorem of_nothing (h : ∀ p ∈ ps, p.payloadOf D = []) : Carried D ps [] := by
  induction ps with
  | nil => exact .nil
  | cons p ps ih =>
    have hp : Carried D (p :: ps) (p.pieces 0 [] ++ []) :=
      .cons (by simp) (h p List.mem_cons_self).symm
        (ih fun p' hp' => h p' (List.mem_cons_of_mem _ hp'))
    exact hp

theorem congr {D' : Bytes} (h : Carried D ps ws) (hD : ∀ p ∈ ps, p.payloadOf D = p.payloadOf D') :
    Carried D' ps ws := by
  induction h with
  | nil => exact .nil
  | cons hne hbs _ ih =>
    exact .cons hne (hbs.trans (hD _ List.mem_cons_self))
      (ih fun p hp => hD p (List.mem_cons_of_mem _ hp))

end Plan.Carried

namespace Aperture

/-- The call on the chip that a write at an address comes to. -/
def call (a : Aperture) (w : Nat × Bytes) : Event := .flash (.write (w.1 - a.base.toNat) w.2) none

/-- The writes succeed, one after the other. -/
def Accepts (a : Aperture) : Board → List (Nat × Bytes) → Prop
  | _, [] => True
  | b, w :: ws => ∃ b', a.write (.ofNat w.1) w.2 b = .ok () b' ∧ a.Accepts b' ws

variable {a : Aperture} {b b' : Board} {ws : List (Nat × Bytes)}

/-- What a write that succeeds does is up to the chip alone. -/
theorem write_eq_ok {address : Word} {bytes : Bytes} {t : Board} :
    a.write address bytes b = .ok () t ↔ ∃ offset chip, a.offset address = .ok offset ∧
      a.held = false ∧ Chip.write offset bytes b.chip = .ok () chip ∧
      t = { b with chip }.note (.flash (.write offset bytes) none) := by
  have hthrough : ∀ offset, a.through (Board.writeFlash offset bytes) b = .ok () t ↔
      ∃ chip, a.held = false ∧ Chip.write offset bytes b.chip = .ok () chip ∧
        t = { b with chip }.note (.flash (.write offset bytes) none) := by
    intro offset
    unfold through Board.writeFlash Board.onChip
    cases a.held <;> cases Chip.write offset bytes b.chip <;> simp [eq_comm]
  unfold write
  rw [bind_eq_ok]
  constructor
  · rintro ⟨offset, _, ho, hx⟩
    obtain ⟨hoffset, rfl⟩ := ofExcept_eq_ok.1 ho
    obtain ⟨chip, hmade⟩ := (hthrough offset).1 hx
    exact ⟨offset, chip, hoffset, hmade⟩
  · rintro ⟨offset, chip, hoffset, hmade⟩
    exact ⟨offset, b, ofExcept_eq_ok.2 ⟨hoffset, rfl⟩, (hthrough offset).2 ⟨chip, hmade⟩⟩

theorem Accepts.congr (h : a.Accepts b ws) (hc : b.chip = b'.chip) : a.Accepts b' ws := by
  induction ws generalizing b b' with
  | nil => trivial
  | cons w ws ih =>
    obtain ⟨t, hw, ht⟩ := h
    obtain ⟨offset, chip, hoffset, hheld, hmade, rfl⟩ := write_eq_ok.1 hw
    rw [hc] at hmade
    exact ⟨_, write_eq_ok.2 ⟨offset, chip, hoffset, hheld, hmade, rfl⟩, ih ht rfl⟩

/-- A write that succeeds goes into the journal. -/
theorem does_write {w : Nat × Bytes} (hw : w.1 < UInt32.size)
    (h : a.write (.ofNat w.1) w.2 b = .ok () b') : Does [a.call w] b b' := by
  obtain ⟨hfalse, _⟩ | ⟨offset, fault, hoffset, hfault, hdoes⟩ := (a.write_does _ _ b).ok h
  · cases hfalse
  · rw [offset_eq_ok, UInt32.toNat_ofNat_of_lt' hw] at hoffset
    obtain rfl := Option.isNone_iff_eq_none.1 hfault
    rw [call, ← hoffset, Nat.add_sub_cancel_left]
    exact hdoes

/-- Pieces that go where flash is erased are accepted, and what comes after them has to be accepted
once they are there. -/
theorem accepts_pieces {p : Placement} {done : Nat} {bs : List Bytes} (hf : b.chip.Faultless)
    (hh : a.held = false) (hne : ∀ x ∈ bs, x ≠ [])
    (hbase : a.base.toNat ≤ p.destination.toNat + done)
    (hwithin : p.destination.toNat + done + bs.flatten.length ≤ a.base.toNat + b.chip.size)
    (hsize : p.destination.toNat + done + bs.flatten.length ≤ UInt32.size)
    (herased : ∀ i, p.destination.toNat + done ≤ a.base.toNat + i →
      a.base.toNat + i < p.destination.toNat + done + bs.flatten.length →
      b.chip.byte i = erasedByte)
    (hrest : ∀ b', (b.chip.preset (p.destination.toNat + done - a.base.toNat) bs.flatten).Same
      b'.chip → a.Accepts b' ws) : a.Accepts b (p.pieces done bs ++ ws) := by
  induction bs generalizing b done with
  | nil => exact hrest b (.refl _)
  | cons x bs ih =>
    rw [List.flatten_cons, List.length_append] at hwithin hsize herased
    have hpos := List.length_pos_iff.2 (hne x List.mem_cons_self)
    have hoffset : a.offset (.ofNat (p.destination.toNat + done)) =
        .ok (p.destination.toNat + done - a.base.toNat) := by
      rw [offset_eq_ok, UInt32.toNat_ofNat_of_lt' (by omega)]
      omega
    have hrefusal : b.chip.writeRefusal (p.destination.toNat + done - a.base.toNat) x = none :=
      Chip.writeRefusal_eq_none (by omega) fun i hlo hhi => herased i (by omega) (by omega)
    obtain ⟨_, b', ⟨rfl, hchip, _⟩, hwrite⟩ := (write_ok hf hh hoffset hrefusal).outcome_eq
    have hchipsize : b'.chip.size = b.chip.size := hchip.size
    refine ⟨b', hwrite, ih (hchip.faultless hf) (fun y hy => hne y (List.mem_cons_of_mem _ hy))
      (by omega) (by omega) (by omega) (fun i hlo hhi => ?_) fun b'' hb => hrest b'' ?_⟩
    · rw [hchip.byte, Chip.byte_preset_of_not (by omega) (by omega)]
      exact herased i (by omega) (by omega)
    · rw [List.flatten_cons, Chip.preset_append]
      rw [show p.destination.toNat + done - a.base.toNat + x.length =
        p.destination.toNat + (done + x.length) - a.base.toNat by omega]
      exact (hchip.preset _ _).trans hb

/-- Flash that is erased where the images go accepts whatever carries their payloads. -/
theorem accepts_of_clear {D : Bytes} {ps : List Placement} (hf : b.chip.Faultless)
    (hh : a.held = false) (hs : ∀ p ∈ ps, p.Addressed) (hclear : ∀ p ∈ ps, a.Clear b.chip p)
    (hapart : ps.Pairwise Placement.Apart) (h : Plan.Carried D ps ws) : a.Accepts b ws := by
  induction h generalizing b with
  | nil => trivial
  | @cons p ps bs ws hne hbs _ ih =>
    obtain ⟨hpapart, hpsapart⟩ := List.pairwise_cons.1 hapart
    have hp := hclear p List.mem_cons_self
    have hbase := hp.base_le
    have hwithin := hp.within
    have haddressed := hs p List.mem_cons_self
    have hlen : bs.flatten.length ≤ p.payloadLen.toNat := hbs ▸ List.length_take_le _ _
    unfold Placement.Addressed at haddressed
    refine accepts_pieces hf hh hne (by omega) (by omega) (by omega) (fun i hlo hhi => ?_)
      fun b' hb => ?_
    · refine hp.erased i ⟨?_, ?_⟩ <;> omega
    · rw [Nat.add_zero, hbs] at hb
      refine ih (hb.faultless hf) (fun p' hp' => hs p' (List.mem_cons_of_mem _ hp'))
        (fun p' hp' => ?_) hpsapart
      exact ((hclear p' (List.mem_cons_of_mem _ hp')).load hp (hpapart p' hp') D).same hb

end Aperture

/-- From the device `b₀` on, `ws` was written, and then these pieces of the payload of an image,
which are all that the stream has of it before position `q`. Whatever carries the rest will be
accepted. -/
structure Laying (a : Aperture) (D : Bytes) (plan : Plan) (b₀ : Board) (ws : List (Nat × Bytes))
    (p : Placement) (bs : List Bytes) (q : Nat) (b : Board) : Prop where
  nonempty : ∀ x ∈ bs, x ≠ []
  payload : bs.flatten = p.payloadUpTo D q
  does : Does ((ws ++ p.pieces 0 bs).map a.call) b₀ b
  accepts : ∀ rest, Plan.Carried D plan.placements (ws ++ p.pieces 0 bs ++ rest) →
    a.Accepts b rest

namespace Laying

variable {a : Aperture} {D : Bytes} {plan : Plan} {b₀ b b' : Board} {ws : List (Nat × Bytes)}
  {p : Placement} {bs : List Bytes} {q q' : Nat}

/-- Calls of the connection do not matter. -/
theorem silent (h : Laying a D plan b₀ ws p bs q b) (hc : b.chip = b'.chip) (hs : Silent b b') :
    Laying a D plan b₀ ws p bs q b' where
  nonempty := h.nonempty
  payload := h.payload
  does := by
    have hdoes := h.does.trans hs
    rwa [List.append_nil] at hdoes
  accepts rest hrest := (h.accepts rest hrest).congr hc

/-- The next piece is accepted. -/
theorem write (h : Laying a D plan b₀ ws p bs q b) {before later : List Placement}
    (hplan : plan.placements = before ++ p :: later) (hws : Plan.Carried D before ws)
    (hp : p.Addressed) {x : Bytes} (hx : x ≠ []) (hq' : q' ≤ p.streamStop)
    (hnext : p.payloadUpTo D q' = p.payloadUpTo D q ++ x) :
    ∃ address, Word.ofNat? (p.destination.toNat + (p.payloadUpTo D q).length) = some address ∧
      Ends (a.write address x) b fun o b' =>
        o = .ok () ∧ Laying a D plan b₀ ws p (bs ++ [x]) q' b' := by
  have hpieces : p.pieces 0 (bs ++ [x]) =
      p.pieces 0 bs ++ [(p.destination.toNat + (p.payloadUpTo D q).length, x)] := by
    rw [p.pieces_append, h.payload, Nat.zero_add]
    rfl
  have hnonempty : ∀ y ∈ bs ++ [x], y ≠ [] := fun y hy => by
    rcases List.mem_append.1 hy with hy | hy
    · exact h.nonempty y hy
    · exact List.mem_singleton.1 hy ▸ hx
  have hpayload : (bs ++ [x]).flatten = p.payloadUpTo D q' := by
    rw [List.flatten_append, List.flatten_singleton, h.payload, hnext]
  have haddress : p.destination.toNat + (p.payloadUpTo D q).length < UInt32.size := by
    obtain ⟨rest, hrest⟩ := Placement.payloadUpTo_prefix hq' D
    have hlen : (p.payloadOf D).length ≤ p.payloadLen.toNat := List.length_take_le _ _
    have hpos := List.length_pos_iff.2 hx
    rw [hrest, hnext, List.length_append, List.length_append] at hlen
    unfold Placement.Addressed at hp
    omega
  have hmade : ∀ rest, Plan.Carried D plan.placements (ws ++ p.pieces 0 (bs ++ [x]) ++ rest) →
      a.Accepts b ((p.destination.toNat + (p.payloadUpTo D q).length, x) :: rest) := by
    intro rest hrest
    refine h.accepts _ ?_
    rwa [hpieces, ← List.append_assoc, List.append_assoc, List.singleton_append] at hrest
  refine ⟨_, if_pos haddress, ?_⟩
  obtain ⟨rest, hrest⟩ : ∃ rest, Plan.Carried D plan.placements
      (ws ++ p.pieces 0 (bs ++ [x]) ++ rest) := by
    rw [hplan]
    refine hws.exists_rest hnonempty ?_ later
    rw [hpayload]
    exact Placement.payloadUpTo_prefix hq' D
  obtain ⟨b', hwrite, _⟩ := hmade rest hrest
  refine Ends.of_ok hwrite ⟨rfl, hnonempty, hpayload, ?_, fun rest hrest => ?_⟩
  · have hdoes := h.does.trans (Aperture.does_write haddress hwrite)
    rw [hpieces, ← List.append_assoc, List.map_append]
    exact hdoes
  · obtain ⟨b'', hwrite', haccepts⟩ := hmade rest hrest
    rw [hwrite] at hwrite'
    cases hwrite'
    exact haccepts

end Laying

end DualBank
