import DualBank.Proofs.Grammar

/-! A body that is read over and over, into buffers of any sizes. The reads bring its bytes one
after the other until there are no more of them, and then nothing. The bytes that come with the
head always have a place, whatever the connection says. -/
namespace DualBank.Http

variable {σ : Type} [FiniteLink σ]

namespace Body

/-- Reads into buffers of these sizes: what each of them answers, and the body after the last. -/
def reads (b : Body σ) : List Nat → List (Except UpdateError Delivery) × Body σ
  | [] => ([], b)
  | room :: rooms =>
    let a := b.read room
    let next := a.link.reads rooms
    (a.result :: next.1, next.2)

/-- The answer to a read that brings these bytes. -/
def served (x : Bytes) : Except UpdateError Delivery := .ok ⟨x, x.length⟩

/-- What reads into buffers of these sizes bring of a string: its first bytes in order, and all of
them before a read brings none. -/
structure Portions (D : Bytes) (rooms : List Nat) (xs : List Bytes) : Prop where
  sizes : List.Forall₂ (fun x room => x.length ≤ room) xs rooms
  order : xs.flatten <+: D
  whole : ∀ before after, xs = before ++ [] :: after → before.flatten = D

theorem portions_nil (D : Bytes) : Portions D [] [] where
  sizes := .nil
  order := List.nil_prefix
  whole := by simp

theorem Portions.cons {x y : Bytes} {room : Nat} {rooms : List Nat} {xs : List Bytes}
    (h : Portions y rooms xs) (hroom : x.length ≤ room) (hsome : x ++ y ≠ [] → x ≠ []) :
    Portions (x ++ y) (room :: rooms) (x :: xs) where
  sizes := .cons hroom h.sizes
  order := by
    rw [List.flatten_cons]
    exact (List.prefix_append_right_inj x).2 h.order
  whole := by
    intro before after heq
    cases before with
    | nil =>
      obtain ⟨rfl, _⟩ := List.cons.inj heq
      exact (Decidable.byContradiction fun hne => hsome (Ne.symm hne) rfl)
    | cons x' before =>
      obtain ⟨rfl, hrest⟩ := List.cons.inj heq
      rw [List.flatten_cons, h.whole before after hrest]

/-- Reads from here on serve exactly these bytes. Once there have been so many, a read leaves the
body and its connection alone. -/
def Drains (b : Body σ) (D : Bytes) (most : Nat) : Prop :=
  ∀ rooms, (∀ room ∈ rooms, 0 < room) → ∃ xs, (b.reads rooms).1 = xs.map served ∧
    Portions D rooms xs ∧
    (xs.flatten.length = most → ∀ room,
      (b.reads rooms).2.read room = ⟨.ok ⟨[], 0⟩, (b.reads rooms).2, []⟩)

/-! ## Reads of a body whose head is read -/

theorem read_eq_serve {b : Body σ} (h : b.contentLength.isSome = true) (room : Nat) :
    b.read room = b.serve room := by
  obtain ⟨len, hhead⟩ := head_started h
  simp only [Body.read, hhead, List.nil_append]

theorem serve_remaining {b : Body σ} {room : Nat} {d : Delivery}
    (h : (b.serve room).result = .ok d) :
    (b.serve room).link.remaining = b.remaining - d.count := by
  unfold Body.serve at h ⊢
  split at h
  · rename_i hdone
    rw [if_pos hdone]
    cases h
    rfl
  · rename_i hdone
    rw [if_neg hdone]
    split at h
    · rename_i hsome
      rw [if_pos hsome]
      cases h
      rfl
    · rename_i hsome
      rw [if_neg hsome]
      dsimp only at h ⊢
      split at h
      · cases h
      · cases h
        rfl

theorem read_spent {b : Body σ} (h : b.contentLength.isSome = true) (hspent : b.remaining = 0)
    (room : Nat) : b.read room = ⟨.ok ⟨[], 0⟩, b, []⟩ := by
  rw [read_eq_serve h, Body.serve, if_pos (.inl hspent)]

theorem Owes.length_le {b : Body σ} {D : Bytes} (h : b.Owes D) : D.length ≤ b.remaining := by
  obtain ⟨late, _, rfl⟩ := h.late
  exact List.length_take_le _ _

/-- Reads bring what is yet to come, and count it off. -/
theorem Owes.reads {b : Body σ} {D : Bytes} {rooms : List Nat} (h : b.Owes D)
    (hrooms : ∀ room ∈ rooms, 0 < room) : ∃ xs, (b.reads rooms).1 = xs.map served ∧
      Portions D rooms xs ∧ (b.reads rooms).2.contentLength.isSome = true ∧
      (b.reads rooms).2.remaining + xs.flatten.length = b.remaining := by
  induction rooms generalizing b D with
  | nil => exact ⟨[], rfl, portions_nil D, h.started, rfl⟩
  | cons room rooms ih =>
    obtain ⟨hroom, hrooms⟩ := List.forall_mem_cons.1 hrooms
    obtain ⟨x, y, rfl, hres, hle, hsome, hnext⟩ := h.serve hroom
    obtain ⟨xs, hresults, hportions, hstarted, hcount⟩ := ih hnext hrooms
    have hlen := h.length_le
    rw [serve_remaining hres] at hcount
    rw [List.length_append] at hlen
    refine ⟨x :: xs, ?_, hportions.cons hle hsome, ?_, ?_⟩
    · simp only [Body.reads, read_eq_serve h.started, hres, hresults]
      rfl
    · simpa only [Body.reads, read_eq_serve h.started] using hstarted
    · simp only [Body.reads, read_eq_serve h.started, List.flatten_cons, List.length_append]
      dsimp only at hcount
      omega

theorem Owes.drains {b : Body σ} {D : Bytes} (h : b.Owes D) : b.Drains D b.remaining := by
  intro rooms hrooms
  obtain ⟨xs, hresults, hportions, hstarted, hcount⟩ := h.reads hrooms
  refine ⟨xs, hresults, hportions, ?_⟩
  intro hlen room
  exact read_spent hstarted (by omega) room

/-! ## The place for the bytes that come with the head -/

/-- Nothing is pending before the head is read. -/
def Vacant (b : Body σ) : Prop := b.contentLength = none → b.pending = []

omit [FiniteLink σ] in
theorem vacant_start (b : Body σ) (len : Word) (early : Bytes) : (b.start len early).2.Vacant := by
  unfold start Vacant
  dsimp only
  split <;> exact fun hnone => nomatch hnone

theorem Vacant.head {b : Body σ} (h : b.Vacant) : b.head.link.Vacant := by
  unfold Body.head
  split
  · exact h
  · dsimp only
    split
    · exact h
    · exact vacant_start _ _ _

theorem Vacant.serve {b : Body σ} (h : b.Vacant) (room : Nat) : (b.serve room).link.Vacant := by
  unfold Body.serve
  split
  · exact h
  · split
    · intro hnone
      dsimp only at hnone ⊢
      rw [h hnone, List.drop_nil]
    · dsimp only
      split <;> exact h

theorem Vacant.read {b : Body σ} (h : b.Vacant) (room : Nat) : (b.read room).link.Vacant := by
  unfold Body.read
  dsimp only
  split
  · exact h.head
  · exact h.head.serve room

theorem Vacant.reads {b : Body σ} (h : b.Vacant) (rooms : List Nat) : (b.reads rooms).2.Vacant := by
  induction rooms generalizing b with
  | nil => exact h
  | cons room rooms ih => exact ih (h.read room)

end Body

/-- Whatever a connection says, no more comes with the head than one read can bring. -/
theorem readHead_early {bound : Option Nat} {h : Head} {scratch early : Bytes} {s : σ} {len : Word}
    (hscratch : scratch.length = scratchLen)
    (hread : (readHead bound h scratch s).result = .ok (len, early)) :
    early.length ≤ scratchLen := by
  induction hleft : FiniteLink.left s using Nat.strongRecOn generalizing h scratch s with
  | ind left ih =>
    rw [readHead] at hread
    split at hread
    · cases hread
    · rename_i d hd
      dsimp only at hread
      split at hread
      · cases hread
      · rename_i hcount
        split at hread
        · cases hread
        · rename_i received hreceived
          have hfull : (scratch.overlay 0 (d.bytes.take scratchLen)).length = scratchLen := by
            rw [Bytes.length_overlay (by rw [List.length_take]; omega), hscratch]
          have hlen : received.length ≤ scratchLen := by
            obtain ⟨_, hle, _⟩ := Bytes.slice?_eq_some.1 hreceived
            have heq := Bytes.length_of_slice? hreceived
            omega
          cases hscan : h.scan bound received with
          | error e =>
            rw [hscan] at hread
            cases hread
          | ok step =>
            rw [hscan] at hread
            rcases step with h' | ⟨len', rest⟩
            · have hless : FiniteLink.left (Link.read scratchLen s).link < left :=
                hleft ▸ FiniteLink.left_read_lt hd hcount
              exact ih _ hless hfull hread rfl
            · cases hread
              obtain ⟨head, rfl, _⟩ := Head.scan_over hscan
              rw [List.length_append] at hlen
              omega

namespace Body

/-- There is a place for what comes with the head, were it read now. -/
def Roomy (b : Body σ) : Prop :=
  b.contentLength = none → ∀ len early link calls,
    readHead (some Head.lineMax) {} (List.replicate scratchLen 0) b.link =
      ⟨.ok (len, early), link, calls⟩ →
    (start { b with link } len early).1 = .ok len

theorem Vacant.roomy {b : Body σ} (h : b.Vacant) : b.Roomy := by
  intro hnone len early link calls hread
  have hearly : early.length ≤ scratchLen :=
    readHead_early List.length_replicate (congrArg Answer.result hread)
  have hkept : b.pending.length + (early.take len.toNat).length ≤ scratchLen := by
    rw [h hnone, List.length_nil, List.length_take]
    omega
  unfold start
  rw [if_pos hkept]

/-! ## From the first read to the last -/

/-- All of the body is left once its head is read. -/
theorem head_ok {b : Body σ} {len : Word} (hnone : b.contentLength = none)
    (h : b.head.result = .ok len) :
    b.head.link.contentLength.isSome = true ∧ b.head.link.remaining = len.toNat := by
  unfold head at h ⊢
  simp only [hnone] at h ⊢
  split at h
  · cases h
  · rename_i len' early hread
    unfold start at h ⊢
    dsimp only at h ⊢
    split at h
    · rename_i hkept
      cases h
      rw [if_pos hkept]
      exact ⟨rfl, rfl⟩
    · cases h

/-- The head is read by the first read at the latest. -/
theorem reads_head {b : Body σ} {len : Word} (hnone : b.contentLength = none)
    (h : b.head.result = .ok len) (room : Nat) (rooms : List Nat) :
    b.reads (room :: rooms) = b.head.link.reads (room :: rooms) := by
  have hread : (b.read room).result = (b.head.link.read room).result ∧
      (b.read room).link = (b.head.link.read room).link := by
    rw [read_eq_serve (head_ok hnone h).1, Body.read, h]
    exact ⟨rfl, rfl⟩
  simp only [Body.reads, hread.1, hread.2]

theorem drains_head {b : Body σ} {len : Word} {D : Bytes} {most : Nat}
    (hnone : b.contentLength = none) (h : b.head.result = .ok len) (hmost : 0 < most)
    (hdrains : b.head.link.Drains D most) : b.Drains D most := by
  intro rooms hrooms
  cases rooms with
  | nil =>
    refine ⟨[], rfl, portions_nil D, ?_⟩
    intro hzero
    rw [← hzero] at hmost
    exact absurd hmost (Nat.lt_irrefl 0)
  | cons room rooms =>
    rw [reads_head hnone h]
    exact hdrains _ hrooms

/-- A body serves exactly its bytes, in whatever portions they come and into whatever buffers they
are read. What is found in the head depends on the response alone. If that is a length, then the
first bytes behind the head are served, up to that length, whether the head is read before the
first read or by it. The bytes that come with the head never lack a place. -/
theorem reads_serve {s : σ} {R : Bytes} (hs : Link.Serves s R) :
    (head { link := s }).result = (Head.split (some Head.lineMax) {} R).map Prod.fst ∧
    (∀ len, (head { link := s }).result = .ok len →
      ∃ rest, Head.Accepts (some Head.lineMax) R len rest ∧
        Drains { link := s } (rest.take len.toNat) len.toNat ∧
        Drains (head { link := s }).link (rest.take len.toNat) len.toNat) ∧
    ∀ rooms, (reads { link := s } rooms).2.Roomy := by
  obtain ⟨hhead, howes⟩ := head_serves hs
  refine ⟨hhead, ?_, ?_⟩
  · intro len hok
    obtain ⟨rest, hsplit⟩ := Head.map_fst_eq_ok.1 (hhead.symm.trans hok)
    have haccepts := Head.split_eq_ok_iff.1 hsplit
    obtain ⟨_, hremaining⟩ := head_ok rfl hok
    have hdrains := (howes len rest hsplit).drains
    rw [hremaining] at hdrains
    exact ⟨rest, haccepts, drains_head rfl hok haccepts.length_pos hdrains, hdrains⟩
  · intro rooms
    have hvacant : Vacant { link := s } := fun _ => rfl
    exact (hvacant.reads rooms).roomy

/-- The fourth byte behind the head is not part of the body. -/
theorem reads_serve_sample :
    (head { link := Sample.server Sample.response }).result = .ok 3 ∧
    ∃ xs, (reads { link := Sample.server Sample.response } [2, 5, 7]).1 = xs.map served ∧
      Portions "abc".toUTF8.data.toList [2, 5, 7] xs := by
  have hserves := Sample.server_serves Sample.response
  have hsplit : Head.split (some Head.lineMax) {} Sample.response =
      .ok (3, "abcd".toUTF8.data.toList) := by decide +kernel
  have hok : (head { link := Sample.server Sample.response }).result = .ok 3 := by
    rw [(head_serves hserves).1, hsplit]
    rfl
  obtain ⟨_, hbody, _⟩ := reads_serve hserves
  obtain ⟨rest, haccepts, hdrains, _⟩ := hbody 3 hok
  have hrest := hsplit.symm.trans haccepts.split
  cases hrest
  obtain ⟨xs, hresults, hportions, _⟩ := hdrains [2, 5, 7] (by decide)
  exact ⟨hok, xs, hresults, hportions⟩

end Body
end DualBank.Http
