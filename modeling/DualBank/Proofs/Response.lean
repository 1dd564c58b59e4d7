import DualBank.Http.Body
import DualBank.Proofs.Traffic
import DualBank.Proofs.Serving

/-! A response over an honest connection. Its head is found in whatever portions it comes, and what
is left of them, with the connection behind it, honestly brings the body and then no more. -/
namespace DualBank.Http

variable {σ : Type}

namespace Head

/-- Where a scan stands once more bytes have come. -/
def Step.resume (bound : Option Nat) (more : Bytes) : Step → Except UpdateError Step
  | .going h => h.scan bound more
  | .over len rest => .ok (.over len (rest ++ more))

/-- A scan does not see how the bytes arrived. -/
theorem scan_append (bound : Option Nat) (h : Head) (x y : Bytes) :
    h.scan bound (x ++ y) = h.scan bound x >>= Step.resume bound y := by
  induction x generalizing h with
  | nil => rfl
  | cons b x ih =>
    rw [List.cons_append, scan, scan]
    split
    · cases h.endLine with
      | error e => rfl
      | ok next =>
        cases next with
        | inl h' => exact ih h'
        | inr len => rfl
    · exact ih _

/-- A scan stops behind the head, and had it stopped there it would have found the same. -/
theorem scan_over {bound : Option Nat} {h : Head} {b rest : Bytes} {len : Word}
    (hscan : h.scan bound b = .ok (.over len rest)) :
    ∃ head, b = head ++ rest ∧ h.scan bound head = .ok (.over len []) := by
  induction b generalizing h with
  | nil => cases hscan
  | cons x b ih =>
    -- Where the scan goes on, it does so over the head alone too.
    have hcons : ∀ {h' : Head}, h'.scan bound b = .ok (.over len rest) →
        (∀ head, h.scan bound (x :: head) = h'.scan bound head) →
        ∃ head, x :: b = head ++ rest ∧ h.scan bound head = .ok (.over len []) := by
      intro h' hscan' hnext
      obtain ⟨head, rfl, hhead⟩ := ih hscan'
      exact ⟨x :: head, rfl, by rw [hnext, hhead]⟩
    rw [scan] at hscan
    by_cases hx : x = 0x0A
    · rw [if_pos hx] at hscan
      cases hend : h.endLine with
      | error e => rw [hend] at hscan; cases hscan
      | ok next =>
        rw [hend] at hscan
        cases next with
        | inl h' => exact hcons hscan fun head => by rw [scan, if_pos hx, hend]
        | inr len' =>
          cases hscan
          exact ⟨[x], rfl, by rw [scan, if_pos hx, hend]⟩
    · rw [if_neg hx] at hscan
      exact hcons hscan fun head => by rw [scan, if_neg hx]

/-- What is found in a response that is there as a whole: the content length, and the bytes after
the head. -/
def split (bound : Option Nat) (h : Head) (R : Bytes) : Except UpdateError (Word × Bytes) :=
  match h.scan bound R with
  | .error e => .error e
  | .ok (.going _) => .error .streamTruncated
  | .ok (.over len rest) => .ok (len, rest)

/-- These bytes are a head, from its first byte to its last, of a body of this length. -/
def Announces (head : Bytes) (len : Word) : Prop :=
  scan (some lineMax) {} head = .ok (.over len [])

theorem split_eq_ok {R rest : Bytes} {len : Word} :
    split (some lineMax) {} R = .ok (len, rest) ↔
      ∃ head, R = head ++ rest ∧ Announces head len := by
  unfold split
  constructor
  · intro hsplit
    split at hsplit
    · cases hsplit
    · cases hsplit
    · rename_i hscan
      cases hsplit
      exact scan_over hscan
  · rintro ⟨head, rfl, hhead⟩
    rw [scan_append, hhead]
    rfl

theorem Announces.split {head : Bytes} {len : Word} (h : Announces head len) (rest : Bytes) :
    Head.split (some lineMax) {} (head ++ rest) = .ok (len, rest) :=
  split_eq_ok.2 ⟨head, rfl, h⟩

/-- A response has one head at most. -/
theorem Announces.rest_eq {head head' rest rest' : Bytes} {len len' : Word}
    (h : Announces head len) (h' : Announces head' len') (heq : head ++ rest = head' ++ rest') :
    rest = rest' := by
  have hsplit := h.split rest
  rw [heq, h'.split] at hsplit
  cases hsplit
  rfl

end Head

/-! ## Reading the head -/

/-- The outcome of reading a head from a connection, against what there is to find. Some bytes of
the body came with the head, and the connection has yet to bring the others. -/
inductive Finds [Link σ] : Except UpdateError (Word × Bytes) →
    Answer UpdateError σ (Word × Bytes) → Prop
  | error {e : UpdateError} {s : σ} {calls : List LinkCall} : Finds (.error e) ⟨.error e, s, calls⟩
  | ok {len : Word} {early late : Bytes} {s : σ} {calls : List LinkCall}
      (hearly : early.length ≤ scratchLen) (hlate : Link.Serves s late) :
      Finds (.ok (len, early ++ late)) ⟨.ok (len, early), s, calls⟩

theorem Finds.calls [Link σ] {o : Except UpdateError (Word × Bytes)}
    {a : Answer UpdateError σ (Word × Bytes)} (h : Finds o a) (calls : List LinkCall) :
    Finds o { a with calls } := by
  cases h with
  | error => exact .error
  | ok hearly hlate => exact .ok hearly hlate

variable [FiniteLink σ]

/-- The head is found as in the whole response. -/
theorem readHead_finds {bound : Option Nat} {h : Head} {scratch R : Bytes} {s : σ}
    (hs : Link.Serves s R) (hscratch : scratch.length = scratchLen) :
    Finds (h.split bound R) (readHead bound h scratch s) := by
  -- The scan so far and the bytes that are left go into the induction on the reads to come.
  induction hleft : FiniteLink.left s using Nat.strongRecOn generalizing h scratch R s with
  | ind left ih =>
    obtain ⟨x, y, rfl, hres, hroom, hsome, hnext⟩ := hs.read (show 0 < scratchLen by decide)
    have hreceived : (scratch.overlay 0 (x.take scratchLen)).slice? 0 x.length = some x := by
      rw [List.take_of_length_le hroom]
      have hlen : (scratch.overlay 0 x).length = scratchLen := by
        rw [Bytes.length_overlay (by omega), hscratch]
      refine Bytes.slice?_eq_some.2 ⟨Nat.zero_le _, hlen ▸ hroom, ?_⟩
      exact (Bytes.take_overlay_zero scratch x).symm
    rw [readHead]
    split
    · rename_i kind hkind
      rw [hres] at hkind
      cases hkind
    · rename_i d hd
      obtain rfl : ⟨x, x.length⟩ = d := Except.ok.inj (hres.symm.trans hd)
      dsimp only
      split
      · -- There is nothing left, and the head is not over.
        rename_i hzero
        have hnil : x ++ y = [] := Decidable.byContradiction fun hne =>
          hsome hne (List.length_eq_zero_iff.1 hzero)
        rw [hnil]
        exact .error
      · rename_i hcount
        rw [hreceived, Head.split, Head.scan_append]
        dsimp only
        cases hscan : h.scan bound x with
        | error e => exact .error
        | ok step =>
          obtain h' | ⟨len, rest⟩ := step
          · have hless : FiniteLink.left (Link.read scratchLen s).link < left :=
              hleft ▸ FiniteLink.left_read_lt hres hcount
            refine (ih _ hless hnext ?_ rfl).calls _
            rw [List.take_of_length_le hroom, Bytes.length_overlay (by omega), hscratch]
          · obtain ⟨head, rfl, _⟩ := Head.scan_over hscan
            rw [List.length_append] at hroom
            exact .ok (by omega) hnext

/-! ## Serving the body -/

namespace Body

/-- The head is read, and these bytes of the body are yet to come. -/
structure Owes (b : Body σ) (D : Bytes) : Prop where
  started : b.contentLength.isSome = true
  pending_le : b.pending.length ≤ b.remaining
  late : ∃ late, Link.Serves b.link late ∧ D = (b.pending ++ late).take b.remaining

theorem head_started {b : Body σ} (h : b.contentLength.isSome = true) :
    ∃ len, b.head = ⟨.ok len, b, []⟩ := by
  obtain ⟨len, hlen⟩ := Option.isSome_iff_exists.1 h
  refine ⟨len, ?_⟩
  simp only [head, hlen]

theorem read_started {b : Body σ} (h : b.contentLength.isSome = true) (room : Nat) :
    Link.read room b = asLink (b.serve room) := by
  obtain ⟨len, hhead⟩ := head_started h
  change asLink (b.read room) = _
  simp only [read, hhead, List.nil_append]

/-- Bytes that are served first. -/
theorem take_served {x z : Bytes} {n : Nat} (h : x.length ≤ n) :
    (x ++ z).take n = x ++ z.take (n - x.length) := by
  rw [List.take_append, List.take_of_length_le h]

/-- A read takes off the first bytes of what is yet to come. -/
theorem Owes.serve {b : Body σ} {D : Bytes} {room : Nat} (h : b.Owes D) (hroom : 0 < room) :
    ∃ x y, D = x ++ y ∧ (b.serve room).result = .ok ⟨x, x.length⟩ ∧ x.length ≤ room ∧
      (D ≠ [] → x ≠ []) ∧ (b.serve room).link.Owes y := by
  obtain ⟨hstarted, hpending, late, hlate, rfl⟩ := h
  unfold Body.serve
  by_cases hdone : b.remaining = 0
  · rw [if_pos (.inl hdone)]
    refine ⟨[], [], ?_, rfl, Nat.zero_le _, ?_, hstarted, hpending, late, hlate, ?_⟩ <;>
      simp [hdone]
  · rw [if_neg (by omega)]
    by_cases hsome : b.pending ≠ []
    · -- They came with the head.
      have hx : (b.pending.take room).length ≤ b.remaining := by
        rw [List.length_take]
        omega
      have hD : b.pending ++ late = b.pending.take room ++ (b.pending.drop room ++ late) := by
        rw [← List.append_assoc, List.take_append_drop]
      rw [if_pos hsome, hD, take_served hx]
      refine ⟨_, _, rfl, rfl, by rw [List.length_take]; omega, fun _ => ?_, hstarted, ?_, late,
        hlate, rfl⟩
      · have hlen := List.length_pos_iff.2 hsome
        refine List.length_pos_iff.1 ?_
        rw [List.length_take]
        omega
      · dsimp only
        rw [List.length_drop, List.length_take]
        omega
    · -- They come now.
      have hnil : b.pending = [] := Decidable.not_not.1 hsome
      have hlimit : 0 < min b.remaining room := by omega
      obtain ⟨x, y, rfl, hres, hle, hne, hnext⟩ := hlate.read hlimit
      rw [if_neg hsome, hnil, List.nil_append, take_served (by omega)]
      dsimp only
      rw [hres]
      dsimp only
      rw [List.take_of_length_le hle]
      refine ⟨_, _, rfl, rfl, by omega, fun hD => hne fun hnone => hD ?_, hstarted,
        Nat.zero_le _, y, hnext, rfl⟩
      obtain ⟨rfl, rfl⟩ := List.append_eq_nil_iff.1 hnone
      simp

/-- A body is an honest connection, whether its bytes came with the head or come later. -/
theorem honest_owes : Link.Honest (Owes : Body σ → Bytes → Prop) where
  read := by
    intro b D room h hroom
    obtain ⟨x, y, rfl, hres, hle, hne, hnext⟩ := h.serve hroom
    rw [read_started h.started]
    refine ⟨x.length, ?_, hle, ?_, fun hD => List.length_pos_iff.2 (hne hD), ?_⟩
    · rw [List.take_left, asLink, hres]
      rfl
    · rw [List.length_append]
      exact Nat.le_add_right _ _
    · rwa [List.drop_left]
  write bytes h := ⟨h.started, h.pending_le, h.late.imp fun _ ⟨hlate, hD⟩ =>
    ⟨Link.honest_serves.write bytes hlate, hD⟩⟩
  flush h := ⟨h.started, h.pending_le, h.late.imp fun _ ⟨hlate, hD⟩ =>
    ⟨Link.honest_serves.flush hlate, hD⟩⟩

omit [FiniteLink σ] in
/-- What came with the head always has a place. -/
theorem start_eq {s : σ} {len : Word} {early : Bytes} (h : early.length ≤ scratchLen) :
    start { link := s } len early = (.ok len,
      ⟨s, some len, len.toNat, early.take len.toNat⟩) := by
  have hkept : ([] : Bytes).length + (early.take len.toNat).length ≤ scratchLen := by
    rw [List.length_nil, List.length_take]
    omega
  exact if_pos hkept

theorem owes_start {s : σ} {len : Word} {early late : Bytes} (h : Link.Serves s late) :
    Owes ⟨s, some len, len.toNat, early.take len.toNat⟩ ((early ++ late).take len.toNat) where
  started := rfl
  pending_le := List.length_take_le _ _
  late := by
    refine ⟨late, h, ?_⟩
    have hlen : len.toNat - min len.toNat early.length = len.toNat - early.length := by omega
    rw [List.take_append, List.take_append, List.take_take, Nat.min_self, List.length_take, hlen]

/-- The head of a body is what is found in the response, and the body owes the bytes after it, cut
to the length that it announces. -/
theorem head_serves {s : σ} {R : Bytes} (hs : Link.Serves s R) :
    (head { link := s }).result =
      (Head.split (some Head.lineMax) {} R).map Prod.fst ∧
    ∀ len rest, Head.split (some Head.lineMax) {} R = .ok (len, rest) →
      (head { link := s }).link.Owes (rest.take len.toNat) := by
  have hfinds : Finds (Head.split (some Head.lineMax) {} R)
      (readHead (some Head.lineMax) {} (List.replicate scratchLen 0) s) :=
    readHead_finds hs List.length_replicate
  unfold head
  dsimp only
  generalize readHead _ _ _ s = a at hfinds ⊢
  generalize Head.split _ _ R = o at hfinds ⊢
  cases hfinds with
  | error => exact ⟨rfl, fun _ _ h => nomatch h⟩
  | @ok len early late s' calls hearly hlate =>
    dsimp only
    rw [start_eq hearly]
    refine ⟨rfl, fun _ _ h => ?_⟩
    cases h
    exact owes_start hlate

/-! ## The calls of a body -/

section
variable {P : σ → Prop} {C : LinkCall → Prop}

/-- Reading a head comes down to reads. -/
theorem readHead_reads (hlink : ∀ room s, P s → P (Link.read room s).link)
    (hcalls : ∀ room (s : σ), ∀ c ∈ (Link.read room s).calls, C c) {bound : Option Nat} {h : Head}
    {scratch : Bytes} {s : σ} (hs : P s) :
    P (readHead bound h scratch s).link ∧ ∀ c ∈ (readHead bound h scratch s).calls, C c := by
  induction hleft : FiniteLink.left s using Nat.strongRecOn generalizing h scratch s with
  | ind left ih =>
    have hfirst := And.intro (hlink scratchLen s hs) (hcalls scratchLen s)
    rw [readHead]
    split
    · exact hfirst
    · rename_i d hd
      dsimp only
      split
      · exact hfirst
      · rename_i hcount
        split
        · exact hfirst
        · split
          · exact hfirst
          · exact hfirst
          · have hless : FiniteLink.left (Link.read scratchLen s).link < left :=
              hleft ▸ FiniteLink.left_read_lt hd hcount
            obtain ⟨hlast, hrest⟩ := ih _ hless hfirst.1 rfl
            refine ⟨hlast, fun c hc => ?_⟩
            exact (List.mem_append.1 hc).elim (hfirst.2 c) (hrest c)

theorem head_reads (hlink : ∀ room s, P s → P (Link.read room s).link)
    (hcalls : ∀ room (s : σ), ∀ c ∈ (Link.read room s).calls, C c) {b : Body σ} (hb : P b.link) :
    P b.head.link.link ∧ ∀ c ∈ b.head.calls, C c := by
  unfold head
  split
  · exact ⟨hb, fun _ hc => nomatch hc⟩
  · obtain ⟨hlast, hc⟩ := readHead_reads hlink hcalls hb
    dsimp only
    split
    · exact ⟨hlast, hc⟩
    · unfold start
      dsimp only
      split <;> exact ⟨hlast, hc⟩

theorem serve_reads (hlink : ∀ room s, P s → P (Link.read room s).link)
    (hcalls : ∀ room (s : σ), ∀ c ∈ (Link.read room s).calls, C c) {b : Body σ} (room : Nat)
    (hb : P b.link) : P (b.serve room).link.link ∧ ∀ c ∈ (b.serve room).calls, C c := by
  unfold serve
  split
  · exact ⟨hb, fun _ hc => nomatch hc⟩
  · split
    · exact ⟨hb, fun _ hc => nomatch hc⟩
    · dsimp only
      split <;> exact ⟨hlink _ _ hb, hcalls _ _⟩

/-- So does reading a body. -/
theorem read_reads (hlink : ∀ room s, P s → P (Link.read room s).link)
    (hcalls : ∀ room (s : σ), ∀ c ∈ (Link.read room s).calls, C c) {b : Body σ} {room : Nat}
    (hb : P b.link) : P (Link.read room b).link.link ∧ ∀ c ∈ (Link.read room b).calls, C c := by
  obtain ⟨hhead, hc⟩ := head_reads hlink hcalls hb
  change P (asLink (b.read room)).link.link ∧ ∀ c ∈ (asLink (b.read room)).calls, C c
  unfold Body.read asLink
  dsimp only
  split
  · exact ⟨hhead, hc⟩
  · obtain ⟨hlast, hc'⟩ := serve_reads hlink hcalls room hhead
    exact ⟨hlast, fun c hmem => (List.mem_append.1 hmem).elim (hc c) (hc' c)⟩

end

/-- What is written to a body is written to its connection. -/
theorem write_result (bytes : Bytes) (b : Body σ) :
    (Link.write bytes b).result = (Link.write bytes b.link).result := by
  change ((Link.write bytes b.link).result.mapError (UpdateError.streamRead ∘ some)).mapError
    UpdateError.ioKind = _
  cases (Link.write bytes b.link).result <;> rfl

theorem flush_result (b : Body σ) : (Link.flush b).result = (Link.flush b.link).result := by
  change ((Link.flush b.link).result.mapError (UpdateError.streamRead ∘ some)).mapError
    UpdateError.ioKind = _
  cases (Link.flush b.link).result <;> rfl

/-- A body notes the calls of its connection. What came with the head is served without one. -/
theorem notes (hn : Link.NotesWrites σ) : Link.NotesWrites (Body σ) where
  read room b := (read_reads (P := fun _ => True) (fun _ _ => id) hn.read trivial).2
  write bytes b := by
    rw [write_result]
    exact hn.write bytes b.link
  flush b := by
    rw [flush_result]
    exact hn.flush b.link

/-- A body takes what is sent if its connection does. -/
theorem accepts {flushed : Except IoKind Unit} {b : Body σ} (h : Link.Accepts flushed b.link) :
    Link.Accepts flushed b := by
  have hlink := Link.obliging_accepts (σ := σ) flushed
  refine ⟨fun b => Link.Accepts flushed b.link, ?_, h⟩
  constructor
  · intro b room hb
    exact (read_reads (C := fun _ => True) (fun room _ => hlink.read room)
      (fun _ _ _ _ => trivial) hb).1
  · exact fun bytes hb => hlink.write bytes hb
  · exact fun hb => hlink.flush hb
  · intro b bytes hb hne
    rw [write_result]
    exact hlink.taken hb hne
  · intro b hb
    rw [flush_result]
    exact hlink.flushed hb

end Body
end DualBank.Http
