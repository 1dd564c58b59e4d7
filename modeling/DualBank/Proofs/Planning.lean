import DualBank.Proofs.Changes
import DualBank.Proofs.Layout
import DualBank.Proofs.Reception

/-! Planning over an honest connection. The plan is made from the bytes that the connection brings
first, for the address of the bank that does not run, and the connection is left right behind what
was read. -/
namespace DualBank

variable {σ : Type}

namespace Config

/-- Where a bank starts: bank 2 where the store says. -/
def addressOf (c : Config) (s : Store) : Bank → Option Word
  | .bank1 => some c.bank1Address
  | .bank2 => s.value? .bank2Address

/-- The bytes from which positions of the stream are counted. -/
def stream (c : Config) (flow : Flow) (D : Bytes) : Bytes :=
  match flow with
  | .container => if c.expectFileInfo then D.drop FileInfo.length else D
  | .bare => D.drop FileInfo.length

variable (c : Config) {a : Aperture} {b : Board}

theorem bank2Address_yields (hp : b.store.Plain) :
    Yields c.bank2Address b fun v b' =>
      b'.store.Plain ∧ b'.store.value? .bank2Address = some v := by
  have hread : ∀ {b : Board}, b.store.Plain → Yields (Board.readSlot .bank2Address) b
      fun v b' => b'.store.Plain ∧ b'.store.value? .bank2Address = some v := by
    intro b hp
    refine Yields.of_ends (Board.readSlot_ends hp .bank2Address) fun v b' hread => ?_
    obtain ⟨_, hs, _, hv⟩ := hread
    exact ⟨hs.plain hp, (hs.value? _).trans hv⟩
  have hcheck : ∀ {b : Board} (v : Word), b.store.Plain ∧ b.store.value? .bank2Address = some v →
      Yields (do MonadExcept.ofExcept (checkBank2 v); return v : Board.Action Word) b
        fun w b' => b'.store.Plain ∧ b'.store.value? .bank2Address = some w := by
    intro b v h
    exact Yields.bind (Yields.ofExcept (P := fun _ t => t = b) fun _ _ => rfl)
      fun _ t ht => Yields.pure (ht ▸ h)
  refine (hread hp).bind fun stored b₁ ⟨hp₁, hv⟩ => ?_
  by_cases he : stored = erasedWord
  · rw [if_pos he]
    refine Yields.bind (Yields.of_ends (P := fun _ b₂ => b₂.store.Plain)
      (Board.writeSlot_does hp₁ _ _) fun _ b₂ hd => hd.plain hp₁) fun _ b₂ hp₂ => ?_
    exact (hread hp₂).bind fun v b₃ h => hcheck v h
  · rw [if_neg he]
    exact hcheck stored ⟨hp₁, hv⟩

/-- The address is that of the bank that does not run. -/
theorem resolve_yields (running : Bank) (h : ImageHeader) (hp : b.store.Plain) :
    Yields (c.resolve a running h) b fun v b' => v = h.flashAddress ∧ b'.store.Plain ∧
      c.addressOf b'.store running.other = some v := by
  refine Yields.bind (P := fun v b' => b'.store.Plain ∧
    c.addressOf b'.store running.other = some v) ?_ fun v b' hv => Yields.guard fun hne =>
      Yields.pure ⟨Decidable.not_not.1 hne, hv⟩
  refine (c.bank2Address_yields hp).bind fun bank2 b₁ ⟨hp₁, hv⟩ => ?_
  cases running.other with
  | bank1 =>
    refine Yields.bind (Yields.ofExcept (P := fun _ t => t = b₁) fun _ _ => rfl) fun _ t ht => ?_
    exact Yields.guard fun _ => Yields.pure ⟨ht ▸ hp₁, rfl⟩
  | bank2 =>
    refine Yields.bind (Yields.of_ends (P := fun _ b₂ => Does [] b₁ b₂)
      (Board.Quiet.checkClear c a bank2 b₁) fun _ _ hd => hd) fun _ b₂ hd => ?_
    refine Yields.guard fun _ => Yields.pure ⟨hd.plain hp₁, ?_⟩
    exact (hd.value? hp₁ fun e he => nomatch he).trans hv

end Config

namespace Attempt

variable [Link σ]

/-- Planning a container, from its header block on. -/
def planBlock (a : Attempt) : Staged σ (Plan × TargetHeader) := do
  let block ← during .parseHeader Rig.receiveHeader
  let header ← during .parseHeader <| MonadExcept.ofExcept <|
    (TargetHeader.parse block a.running.other.imageTag).mapError UpdateError.ofContainer
  let address ← during .resolveBank <| Rig.onBoard <|
    a.config.resolve a.aperture a.running header.primary
  let plan ← during .resolveBank <| MonadExcept.ofExcept <|
    Plan.ofTarget header a.running.other address a.config.secondaryAddress
  return (plan, header)

theorem planContainer_eq (a : Attempt) : (a.planContainer : Staged σ _) =
    if a.config.expectFileInfo then during .parseHeader FileInfo.receive >>= fun _ => a.planBlock
    else a.planBlock := rfl

/-- Planning a bare image, from its file info on. -/
def planInfo (a : Attempt) : Staged σ Plan := do
  let bank2 := a.config.defaultBank2Address
  let target := a.running.other
  let info ← during .parseHeader FileInfo.receive
  if info.size = 0 then throw ⟨.parseHeader, .malformedHeader⟩
  let address ← match target with
    | .bank1 => do
      during .resolveBank (MonadExcept.ofExcept (a.config.checkFits bank2 info.size))
      pure a.config.bank1Address
    | .bank2 => pure bank2
  during .resolveBank (MonadExcept.ofExcept (Plan.ofBare target address info.size info.checksum))

theorem planBare_eq (a : Attempt) : (a.planBare : Staged σ _) =
    during .resolveBank (Rig.onBoard a.settleBank2) >>= fun _ =>
      during .parseHeader (shakeHands a.running.other) >>= fun _ => a.planInfo := rfl

end Attempt

/-! ## What planning leaves alone -/

theorem Rig.KeptByReads.planInfo [Link σ] {R : Board → Board → Prop} (h : Rig.KeptByReads σ R)
    (a : Attempt) : Rig.Keeping R (a.planInfo : Attempt.Staged σ _) := by
  refine h.bind (h.receiveInfo.during _) fun info => h.guard ?_
  cases a.running.other with
  | bank1 =>
    exact h.bind (.during (h.ofExcept _) _) fun _ => h.bind (h.pure _) fun _ =>
      .during (h.ofExcept _) _
  | bank2 => exact h.bind (h.pure _) fun _ => .during (h.ofExcept _) _

namespace Board.KeptByReads

variable {c : Config} {R : Board → Board → Prop}

theorem bank2Address (h : KeptByReads R) (hslot : ∀ slot, Keeps R (Board.readSlot slot))
    (hsettle : Keeps R (Board.writeSlot .bank2Address c.defaultBank2Address)) :
    Keeps R c.bank2Address := by
  refine (hslot _).bind h.trans fun stored => ?_
  have hcheck : ∀ v, Keeps R
      (do MonadExcept.ofExcept (Config.checkBank2 v); return v : Board.Action Word) :=
    fun v => (Keeps.ofExcept h.refl _).bind h.trans fun _ => Keeps.pure h.refl v
  split
  · exact hsettle.bind h.trans fun _ => (hslot _).bind h.trans hcheck
  · exact hcheck stored

theorem targetAddress (h : KeptByReads R) (hbank2 : Keeps R c.bank2Address) (a : Aperture)
    (target : Bank) (imageLen : Word) : Keeps R (c.targetAddress a target imageLen) := by
  refine hbank2.bind h.trans fun bank2 => ?_
  cases target with
  | bank1 =>
    exact (Keeps.ofExcept h.refl _).bind h.trans fun _ => .guard h.refl (Keeps.pure h.refl _)
  | bank2 =>
    exact (h.checkClear c a bank2).bind h.trans fun _ => .guard h.refl (Keeps.pure h.refl _)

/-- The look at the banks may write the address of the second one, and nothing else. -/
theorem resolve (h : KeptByReads R) (hbank2 : Keeps R c.bank2Address) (a : Aperture)
    (running : Bank) (header : ImageHeader) : Keeps R (c.resolve a running header) :=
  (h.targetAddress hbank2 a _ _).bind h.trans fun _ => .guard h.refl (Keeps.pure h.refl _)

end Board.KeptByReads

theorem Rig.KeptByReads.planContainer [Link σ] {R : Board → Board → Prop}
    (h : Rig.KeptByReads σ R) {a : Attempt}
    (hresolve : ∀ header, Keeps R (a.config.resolve a.aperture a.running header)) :
    Rig.Keeping R (a.planContainer : Attempt.Staged σ _) := by
  have hblock : Rig.Keeping R (a.planBlock : Attempt.Staged σ _) := by
    refine h.bind (h.receiveHeader.during _) fun _ => ?_
    refine h.bind (.during (h.ofExcept _) _) fun _ => ?_
    refine h.bind (.during (.onBoard (hresolve _)) _) fun _ => ?_
    exact h.bind (.during (h.ofExcept _) _) fun _ => h.pure _
  rw [Attempt.planContainer_eq]
  split
  · exact h.bind (h.receiveInfo.during _) fun _ => hblock
  · exact hblock

theorem Rig.KeptByReads.planBare [Link σ] {R : Board → Board → Prop} (h : Rig.KeptByReads σ R)
    (hhear : ∀ {α : Type} (answer : Answer IoKind σ α) (r : Rig σ), R r.board (r.hear answer).board)
    {a : Attempt} (hsettle : Keeps R a.settleBank2) :
    Rig.Keeping R (a.planBare : Attempt.Staged σ _) := by
  have hlink : ∀ {α : Type} (call : σ → Answer IoKind σ α),
      Rig.Keeping R (Rig.onLink call : Rig.Action σ α) := fun call r =>
    .onLink (hhear (call r.link) r)
  have hshake : Rig.Keeping R (Attempt.shakeHands a.running.other : Rig.Action σ Unit) :=
    h.bind (hlink _) fun _ => h.guard (hlink _)
  rw [Attempt.planBare_eq]
  refine h.bind (.during (.onBoard hsettle) _) fun _ => ?_
  exact h.bind (hshake.during _) fun _ => h.planInfo a

/-- Reads keep the relation, and so do calls of the connection and the one write that planning may
make. -/
structure Rig.KeptByPlanning (σ : Type) [Link σ] (c : Config) (R : Board → Board → Prop) : Prop
    extends toReads : Rig.KeptByReads σ R where
  hear : ∀ {α : Type} (answer : Answer IoKind σ α) (r : Rig σ), R r.board (r.hear answer).board
  slot : ∀ slot, Keeps R (Board.readSlot slot)
  settle : Keeps R (Board.writeSlot .bank2Address c.defaultBank2Address)

namespace Rig.KeptByPlanning

variable [Link σ] {c : Config} {a : Attempt} {R : Board → Board → Prop}

theorem of_silent (htrans : ∀ {b b' b''}, R b b' → R b' b'' → R b b'')
    (h : ∀ {b b'}, Silent b b' → R b b')
    (hsettle : Keeps R (Board.writeSlot .bank2Address c.defaultBank2Address)) :
    KeptByPlanning σ c R where
  toReads := .of_silent htrans h
  hear answer r := h (Rig.Quiet.hear answer r)
  slot slot := (Board.Quiet.readSlot slot).mono fun _ _ => h
  settle := hsettle

theorem resolve (h : KeptByPlanning σ c R) (a : Aperture) (running : Bank) (header : ImageHeader) :
    Keeps R (c.resolve a running header) :=
  h.toReads.toKeptByReads.resolve (h.toReads.toKeptByReads.bank2Address h.slot h.settle) a running
    header

theorem planContainer (h : KeptByPlanning σ a.config R) :
    Keeping R (a.planContainer : Attempt.Staged σ _) :=
  h.toReads.planContainer fun header => h.resolve _ _ header

theorem settleBank2 (h : KeptByPlanning σ a.config R) : Keeps R a.settleBank2 :=
  (Keeps.ofExcept h.refl _).bind h.trans fun _ =>
    (h.checkClear _ _ _).bind h.trans fun _ => h.settle

theorem planBare (h : KeptByPlanning σ a.config R) :
    Keeping R (a.planBare : Attempt.Staged σ _) :=
  h.toReads.planBare h.hear h.settleBank2

/-- Then all of planning keeps it. -/
theorem plan (h : KeptByPlanning σ a.config R) (flow : Flow) :
    Keeping R (a.plan flow : Attempt.Staged σ _) := by
  cases flow with
  | container => exact h.bind h.planContainer fun _ => h.pure _
  | bare => exact h.bind h.planBare fun _ => h.pure _

end Rig.KeptByPlanning

namespace Attempt

variable [Link σ]

/-- A container was planned from what the connection brought. -/
structure PlannedFrom (a : Attempt) (C : Bytes) (r : Rig σ) (v : Plan × TargetHeader)
    (r' : Rig σ) : Prop where
  parsed : TargetHeader.parse C a.running.other.imageTag = .ok v.2
  plan : Plan.ofTarget v.2 a.running.other v.2.primary.flashAddress a.config.secondaryAddress =
    .ok v.1
  address : a.config.addressOf r'.board.store a.running.other = some v.2.primary.flashAddress
  serves : Link.Serves r'.link (C.drop v.1.streamStart.toNat)
  streamStart_le : v.1.streamStart.toNat ≤ C.length
  buffer : r'.buffer.length = r.buffer.length
  prologue_le : Prologue.length ≤ r.buffer.length

theorem PlannedFrom.buffer_ne {a : Attempt} {C : Bytes} {r r' : Rig σ} {v : Plan × TargetHeader}
    (h : a.PlannedFrom C r v r') : r'.buffer ≠ [] := by
  have hlen := h.buffer
  have hle := h.prologue_le
  refine List.length_pos_iff.1 ?_
  simp only [Prologue.length] at hle
  omega

theorem planBlock_yields (a : Attempt) {r : Rig σ} {C : Bytes} (hs : Link.Serves r.link C)
    (hp : r.board.store.Plain) : Yields a.planBlock r (a.PlannedFrom C r) := by
  have hreceived : Yields Rig.receiveHeader r fun block r₁ =>
      r₁.buffer.length = r.buffer.length ∧ r₁.board.store.Plain ∧
      Rig.headerBlock r.buffer.length C = .ok block ∧
      ∀ d, Prologue.declared C = .ok d → Link.Serves r₁.link (C.drop d) := by
    refine Yields.of_ends (Rig.receiveHeader_ends hs) fun block r₁ hread => ?_
    obtain ⟨ho, hb, hl, hd⟩ := hread
    exact ⟨hl, hb.store.plain hp, ho.symm, hd rfl⟩
  refine hreceived.during.bind fun block r₁ hblock => ?_
  obtain ⟨hl, hp₁, hblock, hserves⟩ := hblock
  obtain ⟨hcap, hlong, d, hd, rfl⟩ := Rig.headerBlock_eq_ok hblock
  rw [TargetHeader.parse_take hd hlong]
  refine Yields.bind (Yields.during (Yields.ofExcept (P := fun t r₂ => r₂ = r₁ ∧
    TargetHeader.parse C a.running.other.imageTag = .ok t) fun t ht => ⟨rfl, ?_⟩))
    fun t r₂ hparsed => ?_
  · cases hx : TargetHeader.parse C a.running.other.imageTag with
    | ok t' => rw [hx] at ht; cases ht; rfl
    | error e => rw [hx] at ht; cases ht
  obtain ⟨rfl, hparse⟩ := hparsed
  have hresolved : Yields (Rig.onBoard (a.config.resolve a.aperture a.running t.primary)) r₂
      fun address r₃ => r₃.link = r₂.link ∧ r₃.buffer = r₂.buffer ∧
        address = t.primary.flashAddress ∧
        a.config.addressOf r₃.board.store a.running.other = some address := by
    refine Yields.onBoard fun address b hx => ?_
    obtain ⟨haddress, _, hof⟩ := a.config.resolve_yields a.running t.primary hp₁ address b hx
    exact ⟨rfl, rfl, haddress, hof⟩
  refine hresolved.during.bind fun address r₃ hresolved => ?_
  obtain ⟨hlink, hbuf, rfl, hof⟩ := hresolved
  refine Yields.bind (Yields.during (Yields.ofExcept (P := fun plan r₄ => r₄ = r₃ ∧
    Plan.ofTarget t a.running.other t.primary.flashAddress a.config.secondaryAddress = .ok plan)
    fun plan h => ⟨rfl, h⟩)) fun plan r₄ hplanned => ?_
  obtain ⟨rfl, hplan⟩ := hplanned
  obtain ⟨d', hd', hblockLen, hle⟩ := TargetHeader.blockLen_of_parse hparse
  obtain ⟨_, _, hstart, _⟩ := Plan.ofTarget_eq_ok hplan
  rw [hblockLen] at hstart
  cases hstart
  exact Yields.pure ⟨hparse, hplan, hof, hlink ▸ hserves _ hd', hle, by rw [hbuf, hl], hcap⟩

theorem planContainer_yields (a : Attempt) {r : Rig σ} {D : Bytes} (hs : Link.Serves r.link D)
    (hp : r.board.store.Plain) :
    Yields a.planContainer r (a.PlannedFrom (a.config.stream .container D) r) := by
  rw [planContainer_eq]
  simp only [Config.stream]
  by_cases hinfo : a.config.expectFileInfo = true
  · rw [if_pos hinfo, if_pos hinfo]
    have hreceived : Yields FileInfo.receive r fun _ r₁ => r₁.buffer = r.buffer ∧
        r₁.board.store.Plain ∧ Link.Serves r₁.link (D.drop FileInfo.length) := by
      refine Yields.of_ends (FileInfo.receive_ends hs) fun _ r₁ hread => ?_
      obtain ⟨hb, hbuf, hserves, _⟩ := hread
      exact ⟨hbuf, hb.store.plain hp, hserves⟩
    refine hreceived.during.bind fun _ r₁ hinfo => ?_
    obtain ⟨hbuf, hp₁, hserves⟩ := hinfo
    intro v r' hx
    obtain ⟨hparse, hplan, hof, hserves', hle, hlen, hcap⟩ := a.planBlock_yields hserves hp₁ v r' hx
    exact ⟨hparse, hplan, hof, hserves', hle, hbuf ▸ hlen, hbuf ▸ hcap⟩
  · rw [if_neg hinfo, if_neg hinfo]
    exact a.planBlock_yields hs hp

theorem plan_container_yields (a : Attempt) {r : Rig σ} {D : Bytes} (hs : Link.Serves r.link D)
    (hp : r.board.store.Plain) : Yields (a.plan .container) r fun v r' =>
      ∃ t, a.PlannedFrom (a.config.stream .container D) r (v.1, t) r' :=
  (a.planContainer_yields hs hp).bind fun v _ h => Yields.pure ⟨v.2, h⟩

end Attempt
end DualBank
