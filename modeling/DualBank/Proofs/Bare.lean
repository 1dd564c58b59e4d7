import DualBank.Proofs.Settlement
import DualBank.Proofs.Standing

/-! A bare image for bank 1. Here bank 2 is where the configuration says, and this becomes the
durable address before anything comes in. So it is the configured address that bounds what a
download for bank 1 may touch, and that may be read afterwards. -/
namespace DualBank

variable {σ : Type}

namespace Attempt

variable [Link σ]

/-- The plan of a bare image for bank 1. The image ends where bank 2 is configured, or before. -/
theorem planBare_found (a : Attempt) (hrun : a.running = .bank2) (r : Rig σ) :
    Yields a.planBare r fun plan _ => a.config.defaultBank2Address.toNat % sectorSize = 0 ∧
      ∃ p, plan.placements = [p] ∧ p.regionStart? = some a.config.bank1Address ∧ 0 < p.span ∧
        a.config.bank1Address.toNat + p.span ≤ a.config.defaultBank2Address.toNat := by
  have htarget : a.running.other = .bank1 := by rw [hrun]; rfl
  have hsettled : Yields a.settleBank2 r.board fun _ _ =>
      a.config.defaultBank2Address.toNat % sectorSize = 0 := by
    refine Yields.bind (Yields.ofExcept (P := fun _ _ => a.config.defaultBank2Address.toNat %
      sectorSize = 0) fun _ h => (Config.checkBank2_eq_ok h).2) fun _ _ h => ?_
    exact Yields.self.bind fun _ _ _ _ _ _ => h
  unfold planBare
  rw [htarget]
  refine Yields.bind (P := fun _ _ => a.config.defaultBank2Address.toNat % sectorSize = 0)
    (Yields.during (Yields.onBoard hsettled)) fun _ r₁ haligned => ?_
  refine Yields.self.bind fun _ r₂ _ => Yields.self.bind fun info r₃ _ => ?_
  refine Yields.guard fun hsize => ?_
  refine Yields.bind (P := fun _ _ => a.config.bank1Address.toNat + info.size.toNat ≤
    a.config.defaultBank2Address.toNat) (Yields.during (Yields.ofExcept fun _ h =>
      Config.checkFits_eq_ok h)) fun _ r₄ hfits => ?_
  refine Yields.during (Yields.ofExcept fun plan h => ?_)
  obtain ⟨p, hps, hstart, hspan⟩ := Plan.placements_ofBare h
  refine ⟨haligned, p, hps, hstart, ?_, hspan ▸ hfits⟩
  rw [hspan]
  exact Nat.pos_of_ne_zero fun hzero => hsize (UInt32.toNat_inj.1 hzero)

/-- Each call is the store's own, or a call on the flash below the configured address of bank 2. -/
theorem run_bare_calls (a : Attempt) (hflow : a.config.flow = .bare) (hrun : a.running = .bank2)
    (hbase : a.aperture.base.toNat % sectorSize = 0) (r : Rig σ) :
    ∃ ms, Does ms r.board (a.run r).2.board ∧
      ∀ e ∈ ms, e.OfStore a.config r.board.store.home? ∨
        ∀ i, e.Touches i → a.aperture.base.toNat + i < a.config.defaultBank2Address.toNat := by
  have hsigned : ∀ {plan header} {r r₁ : Rig σ},
      a.plan a.config.flow r = .ok (plan, header) r₁ → Signed a.config.flow plan :=
    fun _ hcontainer => by rw [hflow] at hcontainer; cases hcontainer
  obtain ⟨f, r₁, _, ms, hd, hms⟩ | ⟨plan, header, r₁, hx, ms, hd, hms⟩ := a.run_tends hsigned r
  · refine ⟨ms, hd, fun e he => .inl ?_⟩
    obtain hstore | ⟨p, hp, _⟩ := hms e he
    · exact hstore
    · cases hp
  · rw [hflow] at hx
    obtain ⟨plan', r₂, hplan, hx⟩ := bind_eq_ok.1 hx
    cases hx
    obtain ⟨haligned, p, hps, hstart, hlen, hfits⟩ := a.planBare_found hrun r _ _ hplan
    refine ⟨ms, hd, fun e he => ?_⟩
    obtain hstore | ⟨p', hp', hfor⟩ := hms e he
    · exact .inl hstore
    · obtain rfl : p' = p := by simpa [hps] using hp'
      exact .inr fun i hi => hfor.stays_below hbase haligned hstart hlen hfits hi

/-- A bare image for bank 1 stays below the configured address of bank 2. Every write and erasure
but those of the store itself touches lower bytes only, so from that address on no byte changes but
those of the record. If the words are in memory, or in a record that the image is clear of, then the
address of bank 2 is in the end what it was, or the configured one. -/
theorem run_bare_bounded (a : Attempt) (hflow : a.config.flow = .bare) (hrun : a.running = .bank2)
    (hbase : a.aperture.base.toNat % sectorSize = 0) (r : Rig σ) :
    ∃ ms, Does ms r.board (a.run r).2.board ∧
      (∀ e ∈ ms, e.OfStore a.config r.board.store.home? ∨
        ∀ i, e.Touches i → a.aperture.base.toNat + i < a.config.defaultBank2Address.toNat) ∧
      (∀ i < r.board.chip.size, a.config.defaultBank2Address.toNat ≤ a.aperture.base.toNat + i →
        ¬r.board.store.Holds i → (a.run r).2.board.chip.byte i = r.board.chip.byte i) ∧
      (r.board.Lasting → a.Spares r →
        (a.run r).2.board.kept? .bank2Address = r.board.kept? .bank2Address ∨
        (a.run r).2.board.kept? .bank2Address = some a.config.defaultBank2Address) := by
  obtain ⟨ms, hd, hms⟩ := a.run_bare_calls hflow hrun hbase r
  refine ⟨ms, hd, hms, fun i hi hle hfree => ?_, fun hl hs => ?_⟩
  · refine hd.byte hi fun e he ht => ?_
    obtain hstore | hbelow := hms e he
    · exact hfree (hstore.holds ht)
    · exact absurd (hbelow i ht) (by omega)
  · exact (a.run_establishes hl hs).bank2.imp_right And.left

end Attempt

/-! Devices whose bank 2 runs, and a bare image that breaks off after its file info. -/
namespace Sample

def bare (base default : Word) : Attempt where
  aperture := { base }
  config := { flashBase := base, bank1Address := base, defaultBank2Address := default,
              flow := .bare }
  running := .bank2

/-- Bank 1 is there, and one more byte of flash is written. -/
def bareBoard (marked : Nat) (store : Store) : Board where
  chip := (({ size := 0x3000 : Chip }.preset 8 (Word.toBytes 0)).preset 0x28
    (Word.toBytes 0)).preset marked [0x55]
  store

def bareRig (size : Word) (board : Board) : Rig Scripted where
  link := { data := FileInfo.encode ⟨0, 0, size⟩ }
  board
  buffer := List.replicate 16 0

/-- The store has bank 2 lower than the configuration has it. -/
def lower : Rig Scripted := bareRig 0x1001 (bareBoard 0x1000 (.memory { bank2Address := 0x1000 }))

/-- The flash starts in the middle of a sector. -/
def shifted : Rig Scripted := bareRig 16 (bareBoard 0xF00 (.memory { bank2Address := 0x1000 }))

/-- The record of the store is where the image for bank 1 goes. -/
def covered : Rig Scripted :=
  let board := bareBoard 0x2FFF (.record { base := 0 } 0x1000)
  bareRig 0x1001 { board with chip := board.chip.preset 0x1000 (Word.toBytes 0x2000) }

end Sample

namespace Attempt

theorem run_bare_bounded_sample :
    (Sample.bare 0 0x1000).config.flow = .bare ∧ (Sample.bare 0 0x1000).running = .bank2 ∧
    (Sample.bare 0 0x1000).aperture.base.toNat % sectorSize = 0 ∧
    Sample.shifted.board.Lasting ∧ (Sample.bare 0 0x1000).Spares Sample.shifted ∧
    ((Sample.bare 0 0x1000).run Sample.shifted).1.isReboot = false ∧
    (∀ i < 0x3000, 0x1000 ≤ i → ((Sample.bare 0 0x1000).run Sample.shifted).2.board.chip.byte i =
      Sample.shifted.board.chip.byte i) ∧
    ((Sample.bare 0 0x1000).run Sample.shifted).2.board.kept? .bank2Address = some 0x1000 := by
  have hl : Sample.shifted.board.Lasting := .inl rfl
  have hs : (Sample.bare 0 0x1000).Spares Sample.shifted :=
    fun _ _ _ _ => Store.apart_memory rfl _ _
  obtain ⟨_, _, _, hbytes, hword⟩ :=
    (Sample.bare 0 0x1000).run_bare_bounded rfl rfl rfl Sample.shifted
  refine ⟨rfl, rfl, rfl, hl, hs, by decide +kernel, fun i hi hle => ?_, (hword hl hs).elim id id⟩
  refine hbytes i hi (Nat.le_trans hle (Nat.le_add_left _ _)) ?_
  rintro ⟨_, _, hhome, _⟩
  cases hhome

/-- A running bank 2 is not safe from a bare image that fails to come in. Below the configured
address of bank 2 the first byte of it is erased, and the word is the configured address after
that. With a base that is on no sector the same happens to a bank 2 that is where it is configured.
And a record of the store that is where the image goes is erased along with the rest. -/
theorem run_bare_over_bank2 :
    (answer? (Board.readSlot .bank2Address) Sample.lower.board = some 0x1000 ∧
      Sample.lower.board.chip.byte 0x1000 = 0x55 ∧
      ((Sample.bare 0 0x2000).run Sample.lower).1.isReboot = false ∧
      ((Sample.bare 0 0x2000).run Sample.lower).2.board.chip.byte 0x1000 = erasedByte ∧
      answer? (Board.readSlot .bank2Address) ((Sample.bare 0 0x2000).run Sample.lower).2.board =
        some 0x2000) ∧
    (answer? (Board.readSlot .bank2Address) Sample.shifted.board = some 0x1000 ∧
      (Sample.bare 0x100 0x1000).aperture.base.toNat + 0xF00 = 0x1000 ∧
      Sample.shifted.board.chip.byte 0xF00 = 0x55 ∧
      ((Sample.bare 0x100 0x1000).run Sample.shifted).1.isReboot = false ∧
      ((Sample.bare 0x100 0x1000).run Sample.shifted).2.board.chip.byte 0xF00 = erasedByte) ∧
    (answer? (Board.readSlot .bank2Address) Sample.covered.board = some 0x2000 ∧
      ((Sample.bare 0 0x2000).run Sample.covered).1.isReboot = false ∧
      answer? (Board.readSlot .bank2Address) ((Sample.bare 0 0x2000).run Sample.covered).2.board =
        some erasedWord) := by
  refine ⟨⟨?_, ?_, ?_, ?_, ?_⟩, ⟨?_, ?_, ?_, ?_, ?_⟩, ?_, ?_, ?_⟩ <;> decide +kernel

end Attempt
end DualBank
