import DualBank.Proofs.Ends

/-! What reading leaves alone. A relation of devices that every read of flash and every read of the
connection keeps is kept by all that an attempt does besides writing: by the reception of what
precedes the images, by the look at the banks, and by the check of what is in flash. -/
namespace DualBank

variable {ε σ α β : Type}

/-- The action ends with a device that is related to the one it started with. -/
abbrev Rig.Keeping (R : Board → Board → Prop) (x : EStateM ε (Rig σ) α) : Prop :=
  Keeps (fun r r' => R r.board r'.board) x

/-- Reads of flash keep the relation. -/
structure Board.KeptByReads (R : Board → Board → Prop) : Prop where
  refl : ∀ b, R b b
  trans : ∀ {b b' b''}, R b b' → R b' b'' → R b b''
  flash : ∀ (a : Aperture) (address : Word) (len : Nat), Keeps R (a.read address len)

/-- So do reads of the connection. -/
structure Rig.KeptByReads (σ : Type) [Link σ] (R : Board → Board → Prop) : Prop
    extends Board.KeptByReads R where
  link : ∀ (room : Nat) (r : Rig σ), R r.board (r.hear (Link.read room r.link)).board

variable {R : Board → Board → Prop}

namespace Board.KeptByReads

theorem readWord (h : KeptByReads R) (a : Aperture) (address : Word) :
    Keeps R (a.readWord address) :=
  (h.flash a address 4).bind h.trans fun _ => Keeps.pure h.refl _

theorem bank1End (h : KeptByReads R) (c : Config) (a : Aperture) : Keeps R (c.bank1End a) :=
  (Keeps.ofExcept h.refl _).bind h.trans fun _ => (h.readWord a _).bind h.trans fun _ =>
    (Keeps.ofExcept h.refl _).bind h.trans fun _ => (Keeps.ofExcept h.refl _).bind h.trans fun _ =>
      (h.readWord a _).bind h.trans fun _ => Keeps.ofExcept h.refl _

theorem checkClear (h : KeptByReads R) (c : Config) (a : Aperture) (bank2 : Word) :
    Keeps R (c.checkClear a bank2) :=
  (h.bank1End c a).bind h.trans fun _ => Keeps.check h.refl

end Board.KeptByReads

namespace Rig.Keeping

theorem during {x : Rig.Action σ α} (hx : Keeping R x) (stage : Stage) :
    Keeping R (Attempt.during stage x) := fun r => Ends.during ((hx r).mono fun _ _ h => h)

theorem onBoard {x : Board.Action α} (hx : Keeps R x) :
    Keeping R (Rig.onBoard x : Rig.Action σ α) := fun r => Ends.onBoard (hx r.board)

theorem withBuffer {x : Rig.Action σ α} (hx : Keeping R x) (buffer : Bytes) :
    Keeping R (Rig.withBuffer buffer x) := fun _ => Ends.withBuffer (hx _)

theorem get_bind {f : Rig σ → EStateM ε (Rig σ) β} (hf : ∀ r, Keeping R (f r)) :
    Keeping R (MonadState.get >>= f) := fun r => Ends.get_bind (hf r r)

end Rig.Keeping

namespace Rig.KeptByReads

section
variable [Link σ] {x : EStateM ε (Rig σ) α} {f : α → EStateM ε (Rig σ) β}

theorem pure (h : KeptByReads σ R) (v : α) : Keeping R (Pure.pure v : EStateM ε (Rig σ) α) :=
  fun _ => Ends.pure (h.refl _)

theorem throw (h : KeptByReads σ R) (e : ε) :
    Keeping R (MonadExcept.throw e : EStateM ε (Rig σ) α) :=
  fun _ => Ends.throw (h.refl _)

theorem ofExcept (h : KeptByReads σ R) (y : Except ε α) :
    Keeping R (MonadExcept.ofExcept y : EStateM ε (Rig σ) α) :=
  fun _ => Ends.ofExcept (h.refl _)

theorem bind (h : KeptByReads σ R) (hx : Keeping R x) (hf : ∀ v, Keeping R (f v)) :
    Keeping R (x >>= f) :=
  Keeps.bind h.trans hx hf

theorem guard (h : KeptByReads σ R) {c : Prop} [Decidable c] {e : ε}
    {y : EStateM ε (Rig σ) β} (hy : Keeping R y) {k : α → EStateM ε (Rig σ) β} :
    Keeping R (if c then MonadExcept.throw e >>= k else y) :=
  fun r => Ends.guard (fun _ => h.refl _) fun _ => hy r

/-- A check that comes last. -/
theorem check (h : KeptByReads σ R) {c : Prop} [Decidable c] {e : ε} :
    Keeping R (if c then MonadExcept.throw e else Pure.pure () : EStateM ε (Rig σ) Unit) :=
  fun r => by
    split
    · exact Ends.throw (h.refl _)
    · exact Ends.pure (h.refl _)

theorem setBuffer (h : KeptByReads σ R) (f : Bytes → Bytes) :
    Keeping R (modify fun r => { r with buffer := f r.buffer } : Rig.Action σ PUnit) :=
  fun _ => h.refl _

end

variable [Link σ]

theorem readLink (h : KeptByReads σ R) (room : Nat) :
    Keeping R (Rig.onLink (Link.read room) : Rig.Action σ Delivery) := fun r =>
  .onLink (h.link room r)

theorem readInto (h : KeptByReads σ R) (start stop : Nat) :
    Keeping R (Rig.readInto start stop : Rig.Action σ Nat) :=
  h.bind (h.readLink _) fun d =>
    h.bind (h.setBuffer (·.overlay start (d.bytes.take (stop - start)))) fun _ => h.pure d.count

theorem fill (h : KeptByReads σ R) (start stop got : Nat) :
    Keeping R (Rig.fill start stop got : Rig.Action σ Nat) := by
  induction hn : stop - (start + got) using Nat.strongRecOn generalizing got with
  | ind n ih =>
    unfold Rig.fill
    split
    · exact h.pure _
    · refine h.bind (h.readInto _ _) fun count => ?_
      split
      · exact h.pure _
      · split
        · exact ih _ (by omega) _ rfl
        · exact h.pure _

theorem receiveHeader (h : KeptByReads σ R) :
    Keeping R (Rig.receiveHeader : Rig.Action σ Bytes) := by
  unfold Rig.receiveHeader
  refine .get_bind fun r => h.guard (h.bind (h.fill _ _ _) fun received => h.guard ?_)
  refine .get_bind fun r => h.bind (h.ofExcept _) fun declared => h.guard ?_
  refine h.bind (h.fill _ _ _) fun more => .get_bind fun r => ?_
  split
  · exact h.pure _
  · exact h.throw _

theorem receiveInfo (h : KeptByReads σ R) :
    Keeping R (FileInfo.receive : Rig.Action σ FileInfo) :=
  .withBuffer (h.bind (h.fill _ _ _) fun _ => h.guard (.get_bind fun _ => h.pure _)) _

theorem refill (h : KeptByReads σ R) (w : Window) :
    Keeping R (Rig.refill w : Rig.Action σ Window) := by
  unfold Rig.refill
  split
  · exact h.pure _
  · exact .get_bind fun _ => h.bind (h.readInto _ _) fun _ => h.guard (h.pure _)

theorem readBack (h : KeptByReads σ R) (a : Aperture) (address : Word) (len : Nat) :
    Keeping R (Rig.readBack a address len : Rig.Action σ Bytes) :=
  h.bind (.onBoard (h.flash a address len)) fun b =>
    h.bind (h.setBuffer (·.overlay 0 b)) fun _ => h.pure b

theorem sumRegion (h : KeptByReads σ R) (a : Aperture) (address : Word) (capacity : Nat)
    (sum : Word) (done left : Nat) :
    Keeping R (Rig.sumRegion a address capacity sum done left : Rig.Action σ Word) := by
  induction left using Nat.strongRecOn generalizing sum done with
  | ind left ih =>
    unfold Rig.sumRegion
    split
    · exact h.pure _
    · rename_i hl
      dsimp only
      split
      · exact h.bind (h.readBack _ _ _) fun b => ih _ (by omega) _ _
      · exact h.throw _

theorem regionChecksum (h : KeptByReads σ R) (a : Aperture) (address len : Word) :
    Keeping R (Rig.regionChecksum a address len : Rig.Action σ Word) :=
  .get_bind fun _ => h.guard (h.sumRegion _ _ _ _ _ _)

theorem verifyImage (h : KeptByReads σ R) (a : Aperture) (p : Placement) (written : Word)
    (signature : Option Signature) :
    Keeping R (Rig.verifyImage a p written signature : Rig.Action σ Unit) :=
  h.bind (h.regionChecksum _ _ _) fun _ => h.check

theorem verify (h : KeptByReads σ R) (a : Aperture) (s : Summary) (ps : List Placement) :
    Keeping R (Rig.verify a s ps : Rig.Action σ Unit) := by
  induction ps with
  | nil => exact h.pure _
  | cons p rest ih =>
    unfold Rig.verify
    dsimp only
    split
    · exact h.guard (h.bind (h.verifyImage _ _ _ _) fun _ => ih)
    · exact h.bind (h.verifyImage _ _ _ _) fun _ => ih

end Rig.KeptByReads

/-! ## Installing -/

namespace Attempt

variable [Link σ]

/-- Erases the targets, takes the images in, and checks them. -/
def deliver (a : Attempt) (plan : Plan) : Staged σ Summary := do
  during .eraseTarget (Rig.onBoard (Board.eraseTargets a.aperture plan.placements))
  let summary ← during .streamWrite (Rig.transfer a.aperture plan)
  during .verify (Rig.verify a.aperture summary plan.placements)
  return summary

theorem install_eq (a : Attempt) (flow : Flow) (plan : Plan) :
    (a.install flow plan : Staged σ Unit) = a.deliver plan >>= fun summary =>
      during .commitSuccess (Rig.onBoard (a.finish flow plan summary)) := by
  simp only [install, deliver, bind_assoc, pure_bind]

/-- The last step is refused, or it selects the target. In a container flow the target is signed
before that. -/
theorem finish_cases (a : Attempt) (flow : Flow) (plan : Plan) (s : Summary) :
    (∃ e, a.finish flow plan s = MonadExcept.throw e) ∨
    ∃ address, plan.bankAddress? = some address ∧
      (flow = .bare ∧
        a.finish flow plan s = Board.writeSlot .activeBank plan.targetBank.toWord ∨
      ∃ signature, flow = .container ∧ s.signature = some signature ∧
        a.finish flow plan s = a.aperture.write address signature.bytes >>= fun _ =>
          Board.writeSlot .activeBank plan.targetBank.toWord) := by
  cases hb : plan.bankAddress? with
  | none =>
    refine .inl ⟨.invalidLayout, ?_⟩
    cases flow with
    | bare => simp only [finish, Board.commit, hb]
    | container => cases hs : s.signature <;> simp only [finish, Board.commit, hb, hs]
  | some address =>
    cases flow with
    | bare => exact .inr ⟨address, rfl, .inl ⟨rfl, by simp only [finish, Board.commit, hb]⟩⟩
    | container =>
      cases hs : s.signature with
      | none => exact .inl ⟨.invalidLayout, by simp only [finish, hs]⟩
      | some signature =>
        exact .inr ⟨address, rfl, .inr ⟨signature, rfl, rfl, by
          simp only [finish, Board.commit, hb, hs]⟩⟩

end Attempt

/-- If erasing the targets and taking the images in keep the relation, then all of it does, up to
the last step. -/
theorem Rig.KeptByReads.deliver [Link σ] (h : Rig.KeptByReads σ R) {a : Attempt} {plan : Plan}
    (herase : Keeps R (Board.eraseTargets a.aperture plan.placements))
    (htransfer : Rig.Keeping R (Rig.transfer a.aperture plan : Rig.Action σ Summary)) :
    Rig.Keeping R (a.deliver plan : Attempt.Staged σ Summary) :=
  h.bind (.during (.onBoard herase) _) fun _ => h.bind (htransfer.during _) fun s =>
    h.bind ((h.verify _ s _).during _) fun _ => h.pure s

end DualBank
