import DualBank.Proofs.Order
import DualBank.Proofs.Planning

/-! What goes over the connection. Work on the device makes no call on it, and whatever comes after
the handshake of a bare image only reads. So what is sent in an attempt is one byte, and it goes out
before anything is read. -/
namespace DualBank

variable {σ α β : Type}

/-- The call on the connection, if it is one. -/
def Event.link? : Event → Option LinkCall
  | .link call => some call
  | _ => none

/-- The calls on the connection so far, oldest first. -/
def Board.traffic (b : Board) : List LinkCall := b.journal.reverse.filterMap Event.link?

/-- No call on the connection was made. -/
def Mute (b b' : Board) : Prop := b'.traffic = b.traffic

/-- The connection was read from, and that is all. -/
def Listens (b b' : Board) : Prop :=
  ∃ calls, b'.traffic = b.traffic ++ calls ∧ ∀ c ∈ calls, ∃ room answer, c = .read room answer

theorem Mute.trans {b b' b'' : Board} (h : Mute b b') (h' : Mute b' b'') : Mute b b'' :=
  Eq.trans h' h

theorem Mute.listens {b b' : Board} (h : Mute b b') : Listens b b' :=
  ⟨[], Eq.trans h (List.append_nil _).symm, by simp⟩

theorem Listens.trans {b b' b'' : Board} (h : Listens b b') (h' : Listens b' b'') :
    Listens b b'' := by
  obtain ⟨calls, ht, hc⟩ := h
  obtain ⟨calls', ht', hc'⟩ := h'
  refine ⟨calls ++ calls', by rw [ht', ht, List.append_assoc], fun c hmem => ?_⟩
  rcases List.mem_append.1 hmem with hmem | hmem
  · exact hc c hmem
  · exact hc' c hmem

/-- An event that is no call on the connection leaves it as it was. -/
theorem Mute.of_journal {b b' : Board} {e : Event} (hj : b'.journal = e :: b.journal)
    (he : e.link? = none) : Mute b b' := by
  rw [Mute, Board.traffic, hj, List.reverse_cons, List.filterMap_append, List.filterMap_cons, he,
    List.filterMap_nil, List.append_nil]
  rfl

/-- The connection puts each call into the journal, and no other. -/
structure Link.Notes (σ : Type) [Link σ] : Prop where
  read : ∀ (room : Nat) (s : σ), ∃ answer, (Link.read room s).calls = [.read room answer]
  write : ∀ (b : Bytes) (s : σ), (Link.write b s).calls = [.write b (Link.write b s).result]
  flush : ∀ s : σ, (Link.flush s).calls = [.flush (Link.flush s).result]

/-- The connection notes what is sent, and of what is read it notes nothing but reads. -/
structure Link.NotesWrites (σ : Type) [Link σ] : Prop where
  read : ∀ (room : Nat) (s : σ), ∀ c ∈ (Link.read room s).calls,
    ∃ room' answer, c = .read room' answer
  write : ∀ (b : Bytes) (s : σ), (Link.write b s).calls = [.write b (Link.write b s).result]
  flush : ∀ s : σ, (Link.flush s).calls = [.flush (Link.flush s).result]

theorem Link.Notes.writes [Link σ] (hn : Link.Notes σ) : Link.NotesWrites σ where
  read room s := by
    obtain ⟨answer, hcalls⟩ := hn.read room s
    rw [hcalls]
    simp
  write := hn.write
  flush := hn.flush

/-- The connection takes what is sent, or so much of it. -/
structure Link.Takes [Link σ] (bytes : Bytes) (s : σ) (n : Nat) : Prop where
  write : (Link.write bytes s).result = .ok n
  pos : n ≠ 0
  flush : (Link.flush (Link.write bytes s).link).result = .ok ()

theorem Scripted.notes : Link.Notes Scripted where
  read _ _ := ⟨_, rfl⟩
  write b s := by
    change (s.write b).calls = [.write b (s.write b).result]
    unfold Scripted.write
    cases s.writeError <;> rfl
  flush s := by
    change s.flush.calls = [.flush s.flush.result]
    unfold Scripted.flush
    cases s.flushError <;> rfl

/-- Calls that are put into the journal. -/
theorem Board.traffic_heard (b : Board) (calls : List LinkCall) :
    Board.traffic { b with journal := (calls.map Event.link).reverse ++ b.journal } =
      b.traffic ++ calls := by
  have hlink : (calls.map Event.link).filterMap Event.link? = calls := by
    rw [List.filterMap_map]
    exact List.filterMap_some
  simp only [Board.traffic, List.reverse_append, List.reverse_reverse, List.filterMap_append, hlink]

theorem Rig.traffic_hear (r : Rig σ) (a : Answer IoKind σ α) :
    (r.hear a).board.traffic = r.board.traffic ++ a.calls := r.board.traffic_heard a.calls

theorem Rig.onLink_traffic (call : σ → Answer IoKind σ α) (r : Rig σ) :
    Ends (onLink call) r fun o r' => r'.link = (call r.link).link ∧
      r'.board.traffic = r.board.traffic ++ (call r.link).calls ∧
      ∀ v, (call r.link).result = .ok v → o = .ok v := by
  refine .onLink ⟨rfl, r.traffic_hear (call r.link), fun v hv => ?_⟩
  rw [hv]
  rfl

/-! ## The device -/

namespace Mute

theorem bind {x : Board.Action α} {f : α → Board.Action β} (hx : Keeps Mute x)
    (hf : ∀ v, Keeps Mute (f v)) : Keeps Mute (x >>= f) := Keeps.bind Mute.trans hx hf

theorem ofExcept (y : Except UpdateError α) :
    Keeps Mute (MonadExcept.ofExcept y : Board.Action α) :=
  fun _ => Ends.ofExcept rfl

theorem through (a : Aperture) (call : FlashCall) (x : Chip.Action α) :
    Keeps Mute (a.through (Board.onChip call x)) := fun b => by
  have hx : Ends x b.chip fun _ _ => True :=
    Ends.of_cases (fun _ _ _ => trivial) fun _ _ _ => trivial
  refine (a.through_ends hx).mono fun o b' h => ?_
  obtain ⟨_, _, rfl⟩ | ⟨_, _, _, _, _, rfl⟩ := h
  · rfl
  · exact .of_journal rfl rfl

theorem readFlash (a : Aperture) (address : Word) (len : Nat) : Keeps Mute (a.read address len) :=
  bind (ofExcept _) fun _ => through a _ _

theorem writeFlash (a : Aperture) (address : Word) (bytes : Bytes) :
    Keeps Mute (a.write address bytes) :=
  bind (ofExcept _) fun _ => through a _ _

theorem eraseFlash (a : Aperture) (address len : Word) : Keeps Mute (a.erase address len) :=
  bind (ofExcept _) fun _ => through a _ _

theorem reads : Board.KeptByReads Mute where
  refl _ := rfl
  trans := Mute.trans
  flash := readFlash

theorem writeSlot (slot : Slot) (value : Word) : Keeps Mute (Board.writeSlot slot value) := by
  intro b
  unfold Board.writeSlot
  refine Ends.get_bind ?_
  cases b.store with
  | memory m =>
    unfold Board.onMemory Ends
    dsimp only
    cases SlotMemory.write slot value m with
    | ok v m => exact of_journal rfl rfl
    | error e m => exact of_journal rfl rfl
  | record a address =>
    refine bind (ofExcept _) (fun home => bind (reads.readWord a home) fun current => ?_) b
    split
    · exact Keeps.pure reads.refl _
    · split
      · exact writeFlash a _ _
      · exact bind (readFlash a _ _) fun _ => bind (eraseFlash a _ _) fun _ => writeFlash a _ _

theorem eraseTargets (a : Aperture) (ps : List Placement) :
    Keeps Mute (Board.eraseTargets a ps) := by
  induction ps with
  | nil => exact Keeps.pure reads.refl _
  | cons p ps ih =>
    unfold Board.eraseTargets
    split
    · split
      · exact bind (eraseFlash a _ _) fun _ => ih
      · exact Keeps.throw reads.refl _
    · exact Keeps.throw reads.refl _

theorem commit (a : Aperture) (plan : Plan) (signature : Option Signature) :
    Keeps Mute (Board.commit a plan signature) := by
  unfold Board.commit
  split
  · split
    · exact bind (writeFlash a _ _) fun _ => writeSlot _ _
    · exact writeSlot _ _
  · exact Keeps.throw reads.refl _

theorem finish (a : Attempt) (flow : Flow) (plan : Plan) (s : Summary) :
    Keeps Mute (a.finish flow plan s) := by
  unfold Attempt.finish
  split
  · split
    · exact Keeps.throw reads.refl _
    · exact commit _ _ _
  · exact commit _ _ _

theorem rollBack (a : Aperture) (plan : Plan) : Keeps Mute (Board.rollBack a plan) := by
  unfold Board.rollBack
  split
  · exact eraseFlash a _ _
  · exact Keeps.throw reads.refl _

theorem readSlot (slot : Slot) : Keeps Mute (Board.readSlot slot) := by
  intro b
  unfold Board.readSlot
  refine Ends.get_bind ?_
  cases b.store with
  | memory m =>
    unfold Board.onMemory Ends
    dsimp only
    cases SlotMemory.read slot m with
    | ok v m => exact of_journal rfl rfl
    | error e m => exact of_journal rfl rfl
  | record a address => exact bind (ofExcept _) (fun home => reads.readWord a home) b

theorem settleBank2 (a : Attempt) : Keeps Mute a.settleBank2 :=
  bind (ofExcept _) fun _ => bind (reads.checkClear _ _ _) fun _ => writeSlot _ _

end Mute

/-! ## Attempts -/

namespace Listens

theorem of_mute {x : Board.Action α} (hx : Keeps Mute x) : Keeps Listens x :=
  hx.mono fun _ _ => Mute.listens

variable [Link σ]

theorem reads (hn : Link.NotesWrites σ) : Rig.KeptByReads σ Listens where
  refl _ := Mute.listens rfl
  trans := Listens.trans
  flash a address len := of_mute (Mute.readFlash a address len)
  link room r := ⟨_, r.traffic_hear _, hn.read room r.link⟩

theorem planContainer (hn : Link.NotesWrites σ) (a : Attempt) :
    Rig.Keeping Listens (a.planContainer : Attempt.Staged σ _) :=
  (reads hn).planContainer fun header =>
    of_mute (Mute.reads.resolve (Mute.reads.bank2Address Mute.readSlot (Mute.writeSlot _ _)) _ _
      header)

theorem deposit (hn : Link.NotesWrites σ) (a : Aperture) (p : Placement) (c : Cut) (chunk : Bytes) :
    Rig.Keeping Listens (Rig.deposit a p c chunk : Rig.Action σ Unit) := by
  unfold Rig.deposit
  split
  · exact (reads hn).pure _
  · split
    · split
      · exact .onBoard (of_mute (Mute.writeFlash a _ _))
      · exact (reads hn).throw _
    · exact (reads hn).throw _

theorem takeImage (hn : Link.NotesWrites σ) (a : Aperture) (p : Placement) (u : Uptake) :
    Rig.Keeping Listens (Rig.takeImage a p u : Rig.Action σ Uptake) := by
  have h := reads hn
  induction hu : u.need using Nat.strongRecOn generalizing u with
  | ind n ih =>
    unfold Rig.takeImage
    split
    · exact h.pure _
    · rename_i hi
      have hstep : Rig.Keeping Listens (Rig.step a p u (by simpa using hi) : Rig.Action σ _) := by
        refine h.bind (h.refill _) fun w => .get_bind fun r => ?_
        split
        · exact h.bind (deposit hn a p _ _) fun _ => h.pure _
        · exact h.throw _
      exact h.bind hstep fun v => ih _ (hu ▸ v.property) v.val rfl

theorem transfer (hn : Link.NotesWrites σ) (a : Aperture) (plan : Plan) :
    Rig.Keeping Listens (Rig.transfer a plan : Rig.Action σ Summary) := by
  have h := reads hn
  have htake : ∀ (ps : List Placement) (position : Nat) (window : Window) (s : Summary),
      Rig.Keeping Listens (Rig.takeImages a position window s ps : Rig.Action σ Summary) := by
    intro ps
    induction ps with
    | nil => exact fun _ _ _ => h.pure _
    | cons p ps ih => exact fun _ _ _ => h.bind (takeImage hn a p _) fun u => ih _ _ _
  exact .get_bind fun _ => h.guard (htake _ _ _ _)

theorem install (hn : Link.NotesWrites σ) (a : Attempt) (flow : Flow) (plan : Plan) :
    Rig.Keeping Listens (a.install flow plan : Attempt.Staged σ Unit) := by
  have h := reads hn
  have hdeliver := h.deliver (of_mute (Mute.eraseTargets _ _)) (transfer hn a.aperture plan)
  rw [Attempt.install_eq]
  exact h.bind hdeliver fun s => .during (.onBoard (of_mute (Mute.finish a flow plan s))) _

end Listens

namespace Attempt

variable [Link σ]

omit [Link σ] in
theorem abandon_mute (a : Attempt) (plan : Plan) (f : Failure) (r : Rig σ) :
    Mute r.board (a.abandon plan f r).2.board := by
  have hundone := Mute.rollBack a.aperture plan r.board
  unfold abandon
  cases hx : Board.rollBack a.aperture plan r.board with
  | ok v b => exact hundone.ok hx
  | error e b => exact hundone.error hx

/-- The handshake is one byte, and goes out whole. -/
theorem shakeHands_traffic (hn : Link.NotesWrites σ) {target : Bank} {r : Rig σ} {n : Nat}
    (ht : Link.Takes [target.toWord.toUInt8] r.link n) :
    Ends (shakeHands target) r fun o r' => o = .ok () ∧ r'.board.traffic =
      r.board.traffic ++ [.write [target.toWord.toUInt8] (.ok n), .flush (.ok ())] := by
  refine (Rig.onLink_traffic _ r).bind (fun taken r₁ hwritten => ?_) fun e r₁ hwritten => ?_
  · obtain ⟨hlink, hcalls, ho⟩ := hwritten
    cases ho n ht.write
    rw [hn.write, ht.write] at hcalls
    refine Ends.guard (fun hzero => absurd hzero ht.pos) fun _ => ?_
    have hflush := ht.flush
    rw [← hlink] at hflush
    refine (Rig.onLink_traffic _ r₁).mono fun o r₂ hflushed => ?_
    obtain ⟨_, hcalls', ho⟩ := hflushed
    rw [hn.flush, hflush, hcalls, List.append_assoc] at hcalls'
    exact ⟨ho () hflush, hcalls'⟩
  · cases hwritten.2.2 n ht.write

/-- What one attempt does with a connection that takes what is sent: a call that sends these bytes,
one that sees them off, and after that it only reads. -/
def Sends (bytes : Bytes) (n : Nat) (b b' : Board) : Prop :=
  ∃ reads, b'.traffic = b.traffic ++ .write bytes (.ok n) :: .flush (.ok ()) :: reads ∧
    ∀ c ∈ reads, ∃ room answer, c = .read room answer

theorem Sends.listens {bytes : Bytes} {n : Nat} {b b' b'' : Board} (h : Sends bytes n b b')
    (h' : Listens b' b'') : Sends bytes n b b'' := by
  obtain ⟨reads, ht, hr⟩ := h
  obtain ⟨reads', ht', hr'⟩ := h'
  refine ⟨reads ++ reads', by rw [ht', ht, List.append_assoc]; rfl, fun c hmem => ?_⟩
  rcases List.mem_append.1 hmem with hmem | hmem
  · exact hr c hmem
  · exact hr' c hmem

theorem planBare_sends (hn : Link.NotesWrites σ) (a : Attempt) {r : Rig σ} {b : Board} {n : Nat}
    (hsettled : a.settleBank2 r.board = .ok () b)
    (ht : Link.Takes [a.running.other.toWord.toUInt8] r.link n) :
    Ends a.planBare r fun _ r' => Sends [a.running.other.toWord.toUInt8] n r.board r'.board := by
  have hboard : Ends (Rig.onBoard a.settleBank2) r fun o r₁ =>
      o = .ok () ∧ r₁.link = r.link ∧ r₁.board.traffic = r.board.traffic :=
    Ends.onBoard (Ends.of_ok hsettled ⟨rfl, rfl, (Mute.settleBank2 a r.board).ok hsettled⟩)
  rw [planBare_eq]
  refine Ends.bind (P := fun o r₁ => o = .ok () ∧ r₁.link = r.link ∧
    r₁.board.traffic = r.board.traffic) (Ends.during (hboard.mono fun o r₁ h => by
      rw [h.1]; exact ⟨rfl, h.2⟩)) (fun _ r₁ h₁ => ?_) fun _ _ h => nomatch h.1
  obtain ⟨_, hlink, htraffic⟩ := h₁
  rw [← hlink] at ht
  refine Ends.bind (P := fun o r₂ => o = .ok () ∧
    Sends [a.running.other.toWord.toUInt8] n r.board r₂.board)
    (Ends.during ((shakeHands_traffic hn ht).mono fun o r₂ h => ?_))
    (fun _ r₂ h₂ => ?_) fun _ _ h => nomatch h.1
  · obtain ⟨rfl, htraffic₂⟩ := h
    refine ⟨rfl, [], ?_, by simp⟩
    rw [htraffic₂, htraffic]
  · -- Once its first byte is out, an attempt only reads.
    exact ((Listens.reads hn).planInfo a r₂).mono fun _ _ h => h₂.2.listens h

/-- Once there is a plan, or none, an attempt only reads. -/
theorem run_listens (hn : Link.NotesWrites σ) (a : Attempt) (r : Rig σ) :
    Ends (a.plan a.config.flow) r fun _ r₁ => Listens r₁.board (a.run r).2.board := by
  obtain ⟨f, r₁, hx, hrun⟩ | ⟨plan, header, r₁, hx, hrun⟩ := a.run_cases r
  · exact Ends.of_error hx (hrun ▸ Mute.listens rfl)
  · have hinstall := Listens.install hn a a.config.flow plan r₁
    refine Ends.of_ok hx ?_
    obtain ⟨r₂, hy, hrun⟩ | ⟨f, r₂, hy, hrun⟩ := hrun
    · exact hrun ▸ hinstall.ok hy
    · exact hrun ▸ (hinstall.error hy).trans (a.abandon_mute plan f r₂).listens

/-- An attempt at a bare image that gets past the checks of bank 2, over a connection that takes
what is sent, sends the one byte that stands for the target, and only then reads. -/
theorem run_bare_sends (hn : Link.Notes σ) (a : Attempt) (hflow : a.config.flow = .bare)
    {r : Rig σ} {b : Board} {n : Nat} (hsettled : a.settleBank2 r.board = .ok () b)
    (ht : Link.Takes [a.running.other.toWord.toUInt8] r.link n) :
    Sends [a.running.other.toWord.toUInt8] n r.board (a.run r).2.board := by
  have hplan : Ends (a.plan a.config.flow) r fun _ r₁ =>
      Sends [a.running.other.toWord.toUInt8] n r.board r₁.board := by
    rw [hflow]
    exact (planBare_sends hn.writes a hsettled ht).bind (fun _ _ h => Ends.pure h) fun _ _ h => h
  obtain ⟨_, _, hsent, hlistens⟩ := (hplan.and (run_listens hn.writes a r)).outcome
  exact hsent.listens hlistens

end Attempt

/-! ## What is sent -/

/-- Whenever something is sent, the connection takes some of it, and it answers every flush alike.
The property holds of every state that it comes to. -/
structure Link.Obliging [Link σ] (flushed : Except IoKind Unit) (P : σ → Prop) : Prop where
  read : ∀ {s : σ} (room : Nat), P s → P (Link.read room s).link
  write : ∀ {s : σ} (b : Bytes), P s → P (Link.write b s).link
  flush : ∀ {s : σ}, P s → P (Link.flush s).link
  taken : ∀ {s : σ} {b : Bytes}, P s → b ≠ [] →
    ∃ n, (Link.write b s).result = .ok n ∧ 0 < n ∧ n ≤ b.length
  flushed : ∀ {s : σ}, P s → (Link.flush s).result = flushed

/-- From here on the connection takes what is sent. -/
def Link.Accepts [Link σ] (flushed : Except IoKind Unit) (s : σ) : Prop :=
  ∃ P : σ → Prop, Obliging flushed P ∧ P s

theorem Link.obliging_accepts [Link σ] (flushed : Except IoKind Unit) :
    Obliging flushed (Accepts flushed : σ → Prop) where
  read room h := by
    obtain ⟨P, hP, h⟩ := h
    exact ⟨P, hP, hP.read room h⟩
  write b h := by
    obtain ⟨P, hP, h⟩ := h
    exact ⟨P, hP, hP.write b h⟩
  flush h := by
    obtain ⟨P, hP, h⟩ := h
    exact ⟨P, hP, hP.flush h⟩
  taken h hb := by
    obtain ⟨P, hP, h⟩ := h
    exact hP.taken h hb
  flushed h := by
    obtain ⟨P, hP, h⟩ := h
    exact hP.flushed h

/-- A single byte is taken whole. -/
theorem Link.Accepts.write_one [Link σ] {flushed : Except IoKind Unit} {s : σ}
    (h : Accepts flushed s) (byte : UInt8) : (Link.write [byte] s).result = .ok 1 := by
  obtain ⟨n, hres, hpos, hle⟩ := (obliging_accepts flushed).taken h (List.cons_ne_nil byte [])
  obtain rfl : n = 1 := by
    rw [List.length_singleton] at hle
    omega
  exact hres

/-- A script takes what is sent unless it says that writes fail, or that they take nothing. -/
theorem Scripted.accepts {s : Scripted} (hw : s.writeError = none) (hm : s.writeMax ≠ some 0) :
    Link.Accepts s.flush.result s := by
  refine ⟨fun t => t.writeError = none ∧ t.writeMax = s.writeMax ∧
    t.flushError = s.flushError, ?_, hw, rfl, rfl⟩
  constructor
  · intro t room ht
    change (t.readSilent room).link.writeError = none ∧
      (t.readSilent room).link.writeMax = s.writeMax ∧
      (t.readSilent room).link.flushError = s.flushError
    unfold Scripted.readSilent Scripted.readEvent Scripted.serve
    dsimp only
    split
    · exact ht
    · split
      · exact ht
      · split <;> exact ht
  · intro t b ht
    change (t.write b).link.writeError = none ∧ (t.write b).link.writeMax = s.writeMax ∧
      (t.write b).link.flushError = s.flushError
    unfold Scripted.write
    rw [ht.1]
    exact ⟨rfl, ht.2⟩
  · intro t ht
    change t.flush.link.writeError = none ∧ t.flush.link.writeMax = s.writeMax ∧
      t.flush.link.flushError = s.flushError
    unfold Scripted.flush
    cases t.flushError <;> exact ht
  · rintro t b ⟨hw, hmax, _⟩ hb
    change ∃ n, (t.write b).result = .ok n ∧ 0 < n ∧ n ≤ b.length
    unfold Scripted.write
    rw [hw, hmax]
    have hlen := List.length_pos_iff.2 hb
    cases hm' : s.writeMax with
    | none => exact ⟨_, rfl, hlen, Nat.le_refl _⟩
    | some most =>
      have hpos : most ≠ 0 := fun h => hm (by rw [hm', h])
      refine ⟨_, rfl, ?_, List.length_take_le' _ _⟩
      dsimp only
      rw [List.length_take]
      omega
  · rintro t ⟨_, _, hflush⟩
    change t.flush.result = s.flush.result
    unfold Scripted.flush
    rw [hflush]
    cases s.flushError <;> rfl

/-- The bytes that a call got across. -/
def LinkCall.sent : LinkCall → Bytes
  | .write bytes (.ok n) => bytes.take n
  | _ => []

/-- The bytes that were sent so far. -/
def Board.sent (b : Board) : Bytes := b.traffic.flatMap LinkCall.sent

theorem Board.sent_append {b b' : Board} {calls : List LinkCall}
    (h : b'.traffic = b.traffic ++ calls) : b'.sent = b.sent ++ calls.flatMap LinkCall.sent := by
  rw [Board.sent, h, List.flatMap_append]
  rfl

theorem Mute.sent {b b' : Board} (h : Mute b b') : b'.sent = b.sent := by
  rw [Board.sent, show b'.traffic = b.traffic from h]
  rfl

/-- Who only reads sends nothing. -/
theorem Listens.sent {b b' : Board} (h : Listens b b') : b'.sent = b.sent := by
  obtain ⟨calls, ht, hreads⟩ := h
  have hnone : calls.flatMap LinkCall.sent = [] := by
    refine List.flatMap_eq_nil_iff.2 fun c hc => ?_
    obtain ⟨room, answer, rfl⟩ := hreads c hc
    rfl
  rw [Board.sent_append ht, hnone, List.append_nil]

namespace Attempt

/-- What an attempt sends to a server that takes it: the byte for the target, if the server is to
choose a bare image, and the address of bank 2 can be settled on the device. -/
def greeting (a : Attempt) (b : Board) : Bytes :=
  match a.config.flow with
  | .container => []
  | .bare =>
    match a.settleBank2 b with
    | .ok () _ => [a.running.other.toWord.toUInt8]
    | .error _ _ => []

variable [Link σ]

theorem shakeHands_sent (hn : Link.NotesWrites σ) {target : Bank} {r : Rig σ}
    {flushed : Except IoKind Unit} (ht : Link.Accepts flushed r.link) :
    Ends (shakeHands target) r fun _ r' =>
      r'.board.sent = r.board.sent ++ [target.toWord.toUInt8] := by
  have hwrite := ht.write_one target.toWord.toUInt8
  have hsent : ∀ {b : Board}, b.traffic = r.board.traffic ++
      (Link.write [target.toWord.toUInt8] r.link).calls →
      b.sent = r.board.sent ++ [target.toWord.toUInt8] := by
    intro b h
    rw [hn.write, hwrite] at h
    exact Board.sent_append h
  refine (Rig.onLink_traffic _ r).bind (fun taken r₁ hwritten => ?_) fun e r₁ hwritten =>
    hsent hwritten.2.1
  have hr₁ := hsent hwritten.2.1
  refine Ends.guard (fun _ => hr₁) fun _ => ?_
  refine (Rig.onLink_traffic _ r₁).mono fun o r₂ hflushed => ?_
  obtain ⟨_, hcalls, _⟩ := hflushed
  rw [hn.flush] at hcalls
  rw [Board.sent_append hcalls, hr₁]
  exact List.append_nil _

theorem planBare_sent (hn : Link.NotesWrites σ) (a : Attempt) (hflow : a.config.flow = .bare)
    {r : Rig σ} {flushed : Except IoKind Unit} (ht : Link.Accepts flushed r.link) :
    Ends a.planBare r fun _ r' => r'.board.sent = r.board.sent ++ a.greeting r.board := by
  have hmute := Mute.settleBank2 a r.board
  rw [planBare_eq]
  cases hsettled : a.settleBank2 r.board with
  | error e b =>
    have hnone : a.greeting r.board = [] := by simp only [greeting, hflow, hsettled]
    have hboard : Ends (Rig.onBoard a.settleBank2) r fun o r₁ =>
        o = .error e ∧ r₁.board.sent = r.board.sent :=
      Ends.onBoard (Ends.of_error hsettled ⟨rfl, (hmute.error hsettled).sent⟩)
    refine Ends.bind (P := fun o r₁ => o = .error ⟨.resolveBank, e⟩ ∧
      r₁.board.sent = r.board.sent) (Ends.during (hboard.mono fun o r₁ h => by
        rw [h.1]; exact ⟨rfl, h.2⟩)) (fun _ _ h => nomatch h.1) fun _ r₁ h => ?_
    rw [h.2, hnone, List.append_nil]
  | ok _ b =>
    have hbyte : a.greeting r.board = [a.running.other.toWord.toUInt8] := by
      simp only [greeting, hflow, hsettled]
    have hboard : Ends (Rig.onBoard a.settleBank2) r fun o r₁ =>
        o = .ok () ∧ r₁.link = r.link ∧ r₁.board.sent = r.board.sent :=
      Ends.onBoard (Ends.of_ok hsettled ⟨rfl, rfl, (hmute.ok hsettled).sent⟩)
    refine Ends.bind (P := fun o r₁ => o = .ok () ∧ r₁.link = r.link ∧
      r₁.board.sent = r.board.sent) (Ends.during (hboard.mono fun o r₁ h => by
        rw [h.1]; exact ⟨rfl, h.2⟩)) (fun _ r₁ h => ?_) fun _ _ h => nomatch h.1
    obtain ⟨_, hlink, hsent⟩ := h
    rw [← hlink] at ht
    rw [hbyte, ← hsent]
    have hshaken : Ends (during .parseHeader (shakeHands a.running.other)) r₁ fun _ r₂ =>
        r₂.board.sent = r₁.board.sent ++ [a.running.other.toWord.toUInt8] :=
      Ends.during (shakeHands_sent hn ht)
    refine hshaken.bind (fun _ r₂ h₂ => ?_) fun _ _ h₂ => h₂
    exact ((Listens.reads hn).planInfo a r₂).mono fun _ _ h => h.sent.trans h₂

/-- An attempt sends its greeting, and nothing else. -/
theorem run_sent (hn : Link.NotesWrites σ) (a : Attempt) {r : Rig σ}
    (ht : a.config.flow = .bare → ∃ flushed, Link.Accepts flushed r.link) :
    (a.run r).2.board.sent = r.board.sent ++ a.greeting r.board := by
  have hplan : Ends (a.plan a.config.flow) r fun _ r₁ =>
      r₁.board.sent = r.board.sent ++ a.greeting r.board := by
    cases hflow : a.config.flow with
    | container =>
      have hnone : a.greeting r.board = [] := by rw [greeting, hflow]
      rw [hnone, List.append_nil]
      exact (Listens.planContainer hn a r).bind (fun _ _ h => Ends.pure h.sent) fun _ _ h => h.sent
    | bare =>
      obtain ⟨_, ht⟩ := ht hflow
      exact (planBare_sent hn a hflow ht).bind (fun _ _ h => Ends.pure h) fun _ _ h => h
  obtain ⟨_, _, hsent, hlistens⟩ := (hplan.and (run_listens hn a r)).outcome
  exact hlistens.sent.trans hsent

end Attempt
end DualBank
