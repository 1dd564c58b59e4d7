import DualBank.Link.Scripted
import DualBank.Proofs.Contents

/-! An honest connection, and what is read from it. It brings the bytes of a string one after the
other, in portions of its own choice, and a read brings nothing only when there is nothing left.
What is read does not depend on the portions. -/
namespace DualBank

variable {σ : Type}

namespace Bytes

theorem overlay_nil (b : Bytes) (pos : Nat) : b.overlay pos [] = b := by
  simp [overlay]

theorem take_overlay {b : Bytes} {pos : Nat} (h : pos ≤ b.length) (new : Bytes) :
    (b.overlay pos new).take (pos + new.length) = b.take pos ++ new := by
  have hl : (b.take pos ++ new).length = pos + new.length := by simp; omega
  rw [overlay, ← hl, List.take_left]

theorem drop_overlay {b : Bytes} {pos : Nat} (h : pos ≤ b.length) (new : Bytes) :
    (b.overlay pos new).drop (pos + new.length) = b.drop (pos + new.length) := by
  have hl : (b.take pos ++ new).length = pos + new.length := by simp; omega
  rw [overlay, ← hl, List.drop_left]

/-- Bytes that are written behind those written before them. -/
theorem overlay_overlay {b : Bytes} {pos : Nat} (h : pos ≤ b.length) (x y : Bytes) :
    (b.overlay pos x).overlay (pos + x.length) y = b.overlay pos (x ++ y) := by
  have htake := take_overlay h x
  have hdrop := drop_overlay h x
  have hlen : pos + (x ++ y).length = pos + x.length + y.length := by
    rw [List.length_append]; omega
  have htail : (b.overlay pos x).drop (pos + x.length + y.length) =
      b.drop (pos + x.length + y.length) := by
    rw [← List.drop_drop, hdrop, List.drop_drop]
  rw [overlay, htake, htail, overlay, hlen]
  simp only [List.append_assoc]

theorem take_overlay_zero (b new : Bytes) : (b.overlay 0 new).take new.length = new := by
  have h := take_overlay (b := b) (Nat.zero_le _) new
  rwa [Nat.zero_add, List.take_zero, List.nil_append] at h

end Bytes

namespace Link

variable [Link σ]

/-- The relation tells which bytes a connection has yet to bring, and it does bring them. -/
structure Honest (R : σ → Bytes → Prop) : Prop where
  read : ∀ {s : σ} {D : Bytes} {room : Nat}, R s D → 0 < room → ∃ n,
    (Link.read room s).result = .ok ⟨D.take n, n⟩ ∧ n ≤ room ∧ n ≤ D.length ∧
      (D ≠ [] → 0 < n) ∧ R (Link.read room s).link (D.drop n)
  write : ∀ {s : σ} {D : Bytes} (b : Bytes), R s D → R (Link.write b s).link D
  flush : ∀ {s : σ} {D : Bytes}, R s D → R (Link.flush s).link D

/-- The connection honestly brings these bytes, and then no more. -/
def Serves (s : σ) (D : Bytes) : Prop := ∃ R : σ → Bytes → Prop, Honest R ∧ R s D

theorem honest_serves : Honest (Serves : σ → Bytes → Prop) where
  read h hroom := by
    obtain ⟨R, hR, h⟩ := h
    obtain ⟨n, hres, hle, hlen, hpos, hnext⟩ := hR.read h hroom
    exact ⟨n, hres, hle, hlen, hpos, R, hR, hnext⟩
  write b h := by
    obtain ⟨R, hR, h⟩ := h
    exact ⟨R, hR, hR.write b h⟩
  flush h := by
    obtain ⟨R, hR, h⟩ := h
    exact ⟨R, hR, hR.flush h⟩

/-- A read takes off the first bytes of what there is to bring. -/
theorem Serves.read {s : σ} {D : Bytes} {room : Nat} (h : Serves s D) (hroom : 0 < room) :
    ∃ x y, D = x ++ y ∧ (Link.read room s).result = .ok ⟨x, x.length⟩ ∧ x.length ≤ room ∧
      (D ≠ [] → x ≠ []) ∧ Serves (Link.read room s).link y := by
  obtain ⟨n, hres, hle, hlen, hpos, hnext⟩ := honest_serves.read h hroom
  have hn : (D.take n).length = n := by rw [List.length_take, Nat.min_eq_left hlen]
  refine ⟨D.take n, D.drop n, (List.take_append_drop n D).symm, by rw [hres, hn], ?_, fun hne => ?_,
    hnext⟩
  · rwa [hn]
  · exact List.length_pos_iff.1 (hn.symm ▸ hpos hne)

/-- A connection has one string to bring. -/
theorem Serves.unique {s : σ} {D D' : Bytes} (h : Serves s D) (h' : Serves s D') : D = D' := by
  induction hk : D.length using Nat.strongRecOn generalizing s D D' with
  | ind k ih =>
    obtain ⟨x, y, hD, hres, _, hne, hnext⟩ := h.read Nat.one_pos
    obtain ⟨x', y', hD', hres', _, hne', hnext'⟩ := h'.read Nat.one_pos
    have hx : x = x' := congrArg Delivery.bytes (Except.ok.inj (hres.symm.trans hres'))
    subst hx
    by_cases hnil : x = []
    · rw [Decidable.not_not.1 fun hD => hne hD hnil, Decidable.not_not.1 fun hD => hne' hD hnil]
    · have hpos := List.length_pos_iff.2 hnil
      have hshort : y.length < k := by
        rw [← hk, hD, List.length_append]
        omega
      rw [hD, hD', ih y.length hshort hnext hnext' rfl]

end Link

theorem Scripted.serve_honest (s : Scripted) {room limit : Nat} (hpos : 0 < limit)
    (hle : limit ≤ room) : ∃ n, (s.serve limit id).result = .ok ⟨s.data.take n, n⟩ ∧ n ≤ room ∧
      n ≤ s.data.length ∧ (s.data ≠ [] → 0 < n) ∧ (s.serve limit id).link.data = s.data.drop n := by
  refine ⟨min limit s.data.length, ?_, by omega, by omega, fun hne => ?_, ?_⟩
  · simp only [serve, id_eq, List.length_take, ← List.take_eq_take_min]
  · have := List.length_pos_iff.2 hne
    omega
  · simp only [serve, ← List.drop_eq_drop_min]

/-- A script without failures and false counts makes an honest connection. -/
theorem Scripted.serves {s : Scripted} (hs : ∀ e ∈ s.script, ∃ n, e = .serve (n + 1))
    (hf : s.failAt = none) : Link.Serves s s.data := by
  refine ⟨fun t D => t.data = D ∧ (∀ e ∈ t.script, ∃ n, e = .serve (n + 1)) ∧ t.failAt = none,
    ?_, rfl, hs, hf⟩
  constructor
  · rintro t D room ⟨rfl, hscript, hfail⟩ hroom
    have hnone : t.failure? = none := by simp [Scripted.failure?, hfail]
    change ∃ n, (t.readSilent room).result = _ ∧ n ≤ room ∧ n ≤ t.data.length ∧
      (t.data ≠ [] → 0 < n) ∧ (t.readSilent room).link.data = _ ∧
      (∀ e ∈ (t.readSilent room).link.script, _) ∧ (t.readSilent room).link.failAt = none
    simp only [Scripted.readSilent, hnone]
    by_cases hd : t.data = [] ∨ room = 0
    · have hnil : t.data = [] := by
        rcases hd with hd | hd
        · exact hd
        · omega
      simp only [if_pos hd]
      exact ⟨0, by simp, by omega, by omega, fun h => absurd hnil h, by simp, hscript, hfail⟩
    · simp only [if_neg hd]
      unfold Scripted.readEvent
      cases he : t.script[t.turn % t.script.length]? with
      | none =>
        obtain ⟨n, hres, hle, hlen, hpos, hnext⟩ :=
          { t with turn := t.turn + 1 }.serve_honest hroom (Nat.le_refl room)
        exact ⟨n, hres, hle, hlen, hpos, hnext, hscript, hfail⟩
      | some e =>
        obtain ⟨m, rfl⟩ := hscript e (List.mem_of_getElem? he)
        have hlimit : 0 < min (m + 1) room := by omega
        obtain ⟨n, hres, hle, hlen, hpos, hnext⟩ :=
          { t with turn := t.turn + 1 }.serve_honest hlimit (Nat.min_le_right _ room)
        exact ⟨n, hres, hle, hlen, hpos, hnext, hscript, hfail⟩
  · intro t D b ht
    change (t.write b).link.data = D ∧ (∀ e ∈ (t.write b).link.script, _) ∧
      (t.write b).link.failAt = none
    unfold Scripted.write
    cases t.writeError <;> exact ht
  · intro t D ht
    change (t.flush).link.data = D ∧ (∀ e ∈ (t.flush).link.script, _) ∧ (t.flush).link.failAt = none
    unfold Scripted.flush
    cases t.flushError <;> exact ht

end DualBank
