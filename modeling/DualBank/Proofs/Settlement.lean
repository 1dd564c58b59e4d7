import DualBank.Proofs.Selection
import DualBank.Proofs.Words

/-! The address of bank 2 that outlives an attempt. An attempt leaves it, or replaces it by the
configured default. A bare flow checks the default before it does so. A container flow that finds
the word erased writes the default first, and checks what it reads then: a default that bank 2
cannot have is refused, but it stays. -/
namespace DualBank

variable {σ : Type}

namespace Config

/-- The words are safe, and the one for bank 2 is what it was, or the configured default. That is an
address that bank 2 can have, unless the flow is for containers and the word was erased. -/
structure Established (c : Config) (flow : Flow) (b b' : Board) : Prop where
  lasting : b'.Lasting
  home : b'.store.home? = b.store.home?
  bank2 : b'.kept? .bank2Address = b.kept? .bank2Address ∨
    b'.kept? .bank2Address = some c.defaultBank2Address ∧
      (checkBank2 c.defaultBank2Address = .ok () ∨
        flow = .container ∧ b.kept? .bank2Address = some erasedWord)

/-- So it is, if the images are clear of a record that has the words. -/
def Establishes (c : Config) (flow : Flow) (a : Aperture) (ps : List Placement) (b b' : Board) :
    Prop := b.Lasting → b.store.Apart a ps → c.Established flow b b'

variable {c : Config} {flow : Flow} {a : Aperture} {ps : List Placement} {b b' b'' : Board}

theorem Established.of_preserves (h : b.Preserves b') : c.Established flow b b' :=
  ⟨h.lasting, h.home, .inl (h.kept _)⟩

theorem Established.trans (h : c.Established flow b b') (h' : c.Established flow b' b'') :
    c.Established flow b b'' where
  lasting := h'.lasting
  home := h'.home.trans h.home
  bank2 := by
    obtain hsame | ⟨hset, hchecked⟩ := h.bank2
    · rw [← hsame]
      exact h'.bank2
    · -- What is written a second time is the default again.
      obtain hsame' | ⟨hset', _⟩ := h'.bank2
      · exact .inr ⟨hsame'.trans hset, hchecked⟩
      · exact .inr ⟨hset', hchecked⟩

namespace Establishes

theorem refl (b : Board) : c.Establishes flow a ps b b := fun h _ => ⟨h, rfl, .inl rfl⟩

theorem trans (h : c.Establishes flow a ps b b') (h' : c.Establishes flow a ps b' b'') :
    c.Establishes flow a ps b b'' := fun hl hapart =>
  have hb := h hl hapart
  hb.trans (h' hb.lasting (hapart.congr hb.home))

theorem of_does {ms : List Event} (hd : Does ms b b') (hunset : ∀ e ∈ ms, e.Unset)
    (hcovered : ∀ e ∈ ms, e.Covered a ps) : c.Establishes flow a ps b b' :=
  fun hl hapart => .of_preserves (hl.of_does hd hunset hcovered hapart)

theorem silent (h : Silent b b') : c.Establishes flow a ps b b' := of_does h (by simp) (by simp)

theorem forImages (c : Config) (flow : Flow) (a : Aperture) (ps : List Placement) :
    Board.KeptForImages a ps (c.Establishes flow a ps) := ⟨trans, of_does⟩

end Establishes

theorem writeSlot_puts (slot : Slot) (value : Word) (b : Board) :
    Ends (Board.writeSlot slot value) b fun _ b' => b.Lasting → b.Puts slot value b' :=
  Ends.of_cases (fun _ _ hx h => (h.writeSlot slot value).ok hx)
    fun _ _ hx h => (h.writeSlot slot value).error hx

theorem writeActive_establishes (value : Word) :
    Keeps (c.Establishes flow a ps) (Board.writeSlot .activeBank value) := fun b =>
  (writeSlot_puts _ _ b).mono fun _ _ h hl _ =>
    ⟨(h hl).lasting, (h hl).home, ((h hl).kept _).imp id fun hne => nomatch hne.1⟩

/-- The default may become the address of bank 2 if it is checked, or if there is none yet. -/
theorem writeBank2_establishes (h : checkBank2 c.defaultBank2Address = .ok () ∨
      flow = .container ∧ b.kept? .bank2Address = some erasedWord) :
    Ends (Board.writeSlot .bank2Address c.defaultBank2Address) b fun _ b' =>
      c.Establishes flow a ps b b' :=
  (writeSlot_puts _ _ b).mono fun _ _ hputs hl _ =>
    ⟨(hputs hl).lasting, (hputs hl).home, ((hputs hl).kept _).imp id fun hput => ⟨hput.2, h⟩⟩

/-- A container flow writes the default where it finds no address, and checks it only then. -/
theorem bank2Address_establishes (c : Config) (a : Aperture) (ps : List Placement) :
    Keeps (c.Establishes .container a ps) c.bank2Address := by
  have hread : Keeps (c.Establishes .container a ps) (Board.readSlot .bank2Address) :=
    (Board.Quiet.readSlot _).mono fun _ _ => .silent
  have hcheck : ∀ v, Keeps (c.Establishes .container a ps)
      (do MonadExcept.ofExcept (checkBank2 v); return v : Board.Action Word) :=
    fun v => (Keeps.ofExcept .refl _).bind .trans fun _ => Keeps.pure .refl v
  intro b
  by_cases hl : b.Lasting
  · refine (Board.readSlot_kept .bank2Address b).bind (fun stored b₁ hstored => ?_)
      fun _ _ hfailed => .silent hfailed.1
    obtain ⟨hsilent, hkept⟩ := hstored
    have h₁ : c.Establishes .container a ps b b₁ := .silent hsilent
    by_cases herased : stored = erasedWord
    · have hnone : b₁.kept? .bank2Address = some erasedWord := by
        rw [(hl.silent hsilent).kept, hkept stored rfl, herased]
      rw [if_pos herased]
      refine (writeBank2_establishes (.inr ⟨rfl, hnone⟩)).bind (fun _ b₂ h₂ => ?_)
        fun _ _ h₂ => h₁.trans h₂
      exact ((hread.bind .trans hcheck) b₂).mono fun _ _ h₃ => h₁.trans (h₂.trans h₃)
    · rw [if_neg herased]
      exact (hcheck stored b₁).mono fun _ _ h₂ => h₁.trans h₂
  · exact Ends.of_cases (fun _ _ _ h => absurd h hl) fun _ _ _ h => absurd h hl

theorem targetAddress_establishes (c : Config) (a t : Aperture) (ps : List Placement)
    (target : Bank) (imageLen : Word) :
    Keeps (c.Establishes .container a ps) (c.targetAddress t target imageLen) :=
  (Establishes.forImages c _ a ps).flashReads.targetAddress (c.bank2Address_establishes a ps) t
    target imageLen

theorem resolve_establishes (c : Config) (a t : Aperture) (ps : List Placement) (running : Bank)
    (header : ImageHeader) : Keeps (c.Establishes .container a ps) (c.resolve t running header) :=
  (Establishes.forImages c _ a ps).flashReads.resolve (c.bank2Address_establishes a ps) t running
    header

end Config

namespace Attempt

open Config

theorem finish_establishes (a : Attempt) (flow : Flow) (plan : Plan) (s : Summary) :
    Keeps (a.config.Establishes flow a.aperture plan.placements) (a.finish flow plan s) := by
  obtain ⟨e, hx⟩ | ⟨address, hb, ⟨_, hx⟩ | ⟨signature, _, _, hx⟩⟩ := a.finish_cases flow plan s
  · rw [hx]
    exact Keeps.throw .refl e
  · rw [hx]
    exact writeActive_establishes _
  · rw [hx]
    exact ((Establishes.forImages _ flow _ _).sign hb signature).bind .trans fun _ =>
      writeActive_establishes _

/-- A bare flow checks the default, and writes it only then. -/
theorem settleBank2_establishes (a : Attempt) (ps : List Placement) :
    Keeps (a.config.Establishes .bare a.aperture ps) a.settleBank2 := by
  have hclear : Keeps (a.config.Establishes .bare a.aperture ps)
      (a.config.checkClear a.aperture a.config.defaultBank2Address) :=
    (Board.Quiet.checkClear _ _ _).mono fun _ _ => .silent
  intro b
  unfold settleBank2
  refine Ends.bind (P := fun o t => t = b ∧ o = checkBank2 a.config.defaultBank2Address)
    (Ends.ofExcept ⟨rfl, rfl⟩) ?_ ?_
  · rintro _ _ ⟨rfl, hcheck⟩
    exact (hclear _).bind (fun _ _ h => (writeBank2_establishes (.inl hcheck.symm)).mono
      fun _ _ => h.trans) fun _ _ h => h
  · rintro _ _ ⟨rfl, _⟩
    exact .refl _

variable [Link σ]

theorem plan_establishes (a : Attempt) (flow : Flow) (ps : List Placement) :
    Rig.Keeping (a.config.Establishes flow a.aperture ps) (a.plan flow : Staged σ _) := by
  have hreads := (Establishes.forImages a.config flow a.aperture ps).reads (σ := σ)
  cases flow with
  | container =>
    exact hreads.bind (hreads.planContainer fun header => resolve_establishes _ _ _ ps _ header)
      fun _ => hreads.pure _
  | bare =>
    exact hreads.bind (hreads.planBare (fun answer r => .silent (Rig.Quiet.hear answer r))
      (a.settleBank2_establishes ps)) fun _ => hreads.pure _

theorem install_establishes (a : Attempt) (flow : Flow) {plan : Plan} (hw : plan.WellFormed) :
    Rig.Keeping (a.config.Establishes flow a.aperture plan.placements)
      (a.install flow plan : Staged σ _) := by
  rw [install_eq]
  have himages := Establishes.forImages a.config flow a.aperture plan.placements
  exact himages.reads.bind (himages.deliver hw) fun s =>
    Rig.Keeping.during (.onBoard (a.finish_establishes flow plan s)) _

theorem run_establishes (a : Attempt) {r : Rig σ} (hl : r.board.Lasting) (hs : a.Spares r) :
    a.config.Established a.config.flow r.board (a.run r).2.board := by
  obtain ⟨f, r₁, hx, hr⟩ | ⟨plan, header, r₁, hx, hr⟩ :=
    a.run_keeps (R := a.config.Establishes a.config.flow a.aperture) r
      (fun _ => Establishes.trans) (a.plan_establishes _)
      (fun hx => a.install_establishes _ ((a.plan_plans _ r).ok hx))
      fun plan => (Establishes.forImages _ _ _ plan.placements).rollBack
  · exact hr hl (Store.apart_nil _ _)
  · exact hr hl (hs plan header r₁ hx)

/-- An attempt leaves the address of bank 2, or makes it the default: one that bank 2 can have, or
the first address in a container flow. So does each look of a container flow at the banks, whether
or not it ends well. -/
theorem bank2_established (a : Attempt) {r : Rig σ} (hl : r.board.Lasting) :
    (a.Spares r → a.config.Established a.config.flow r.board (a.run r).2.board) ∧
    Ends a.config.bank2Address r.board (fun _ b => a.config.Established .container r.board b) ∧
    (∀ t target imageLen, Ends (a.config.targetAddress t target imageLen) r.board fun _ b =>
      a.config.Established .container r.board b) ∧
    ∀ t running header, Ends (a.config.resolve t running header) r.board fun _ b =>
      a.config.Established .container r.board b := by
  have hcall {α : Type} {x : Board.Action α}
      (hx : Keeps (a.config.Establishes .container a.aperture []) x) :
      Ends x r.board fun _ b => a.config.Established .container r.board b :=
    (hx r.board).mono fun _ _ h => h hl (Store.apart_nil _ _)
  refine ⟨a.run_establishes hl, hcall (a.config.bank2Address_establishes _ _),
    fun t target imageLen => ?_, fun t running header => ?_⟩
  · exact hcall (a.config.targetAddress_establishes _ t _ target imageLen)
  · exact hcall (a.config.resolve_establishes _ t _ running header)

end Attempt

/-- The default becomes the address of bank 2, and bank 2 can have it. -/
theorem Attempt.bank2_established_sample :
    (Sample.rig Sample.container).board.Lasting ∧
    Sample.attempt.Spares (Sample.rig Sample.container) ∧
    (Sample.rig Sample.container).board.kept? .bank2Address = some erasedWord ∧
    (Sample.attempt.run (Sample.rig Sample.container)).2.board.kept? .bank2Address = some 0x1000 ∧
    Sample.attempt.config.Established .container (Sample.rig Sample.container).board
      (Sample.attempt.run (Sample.rig Sample.container)).2.board := by
  have hl : (Sample.rig Sample.container).board.Lasting := .inl rfl
  have hs : Sample.attempt.Spares (Sample.rig Sample.container) :=
    fun _ _ _ _ => Store.apart_memory rfl _ _
  exact ⟨hl, hs, by decide +kernel, by decide +kernel, (Sample.attempt.bank2_established hl).1 hs⟩

namespace Sample

/-- The default is not on a sector. -/
def misaligned : Attempt :=
  { attempt with config := { attempt.config with defaultBank2Address := 0x1001 } }

/-- The device after an attempt, before another image comes. -/
def again (a : Attempt) (r : Rig Scripted) (data : Bytes) : Rig Scripted :=
  { rig data with board := (a.run r).2.board }

end Sample

/-- A default that bank 2 cannot have is refused, but it is there now, and an attempt with a default
that bank 2 can have is refused for it. -/
theorem Attempt.refused_default_persists :
    (Sample.misaligned.run (Sample.rig Sample.container)).1 =
      ⟨.resolveBank, .failed ⟨.resolveBank, .invalidAddress⟩ false⟩ ∧
    (Sample.rig Sample.container).board.kept? .bank2Address = some erasedWord ∧
    (Sample.misaligned.run (Sample.rig Sample.container)).2.board.kept? .bank2Address =
      some 0x1001 ∧
    Config.checkBank2 0x1001 = .error .invalidAddress ∧
    (Sample.attempt.run (Sample.rig Sample.container)).1 = ⟨.commitSuccess, .reboot .bank1⟩ ∧
    (Sample.attempt.run (Sample.again Sample.misaligned (Sample.rig Sample.container)
      Sample.container)).1 = ⟨.resolveBank, .failed ⟨.resolveBank, .invalidAddress⟩ false⟩ := by
  refine ⟨?_, ?_, ?_, ?_, ?_, ?_⟩ <;> decide +kernel

end DualBank
