import DualBank.Proofs.Contents
import DualBank.Proofs.Reads

/-! The calls that change something, as the journal has them. What a device holds in the end is
what it held in the beginning with these calls replayed, so whatever is true of every call is true
of the whole run. A call that failed is in the journal too, and changes nothing. -/
namespace DualBank

variable {ε σ α β : Type}

namespace Event

/-- The call is a write or an erasure. -/
def mutates : Event → Bool
  | .flash (.write _ _) _ | .flash (.erase _ _) _ | .slotWrite _ _ _ => true
  | _ => false

/-- What the call does to a device. -/
def act (b : Board) : Event → Board
  | .flash (.write offset bytes) none => { b with chip := b.chip.preset offset bytes }
  | .flash (.erase start stop) none => { b with chip := b.chip.wiped start stop }
  | .slotWrite slot value false => { b with store := b.store.put slot value }
  | _ => b

/-- The byte of the chip is among those that the call writes or erases. -/
def Touches (i : Nat) : Event → Prop
  | .flash (.write offset bytes) none => offset ≤ i ∧ i < offset + bytes.length
  | .flash (.erase start stop) none => start ≤ i ∧ i < stop
  | _ => False

/-- The call sets the slot. -/
def Sets (slot : Slot) : Event → Prop
  | .slotWrite slot' _ false => slot' = slot
  | _ => False

end Event

namespace Board

/-- The writes and erasures so far, oldest first. -/
def mutations (b : Board) : List Event := (b.journal.filter Event.mutates).reverse

theorem mutations_of_mutates {b b' : Board} {e : Event} (hj : b'.journal = e :: b.journal)
    (he : e.mutates = true) : b'.mutations = b.mutations ++ [e] := by
  rw [mutations, mutations, hj, List.filter_cons, if_pos he, List.reverse_cons]

theorem mutations_of_not {b b' : Board} {e : Event} (hj : b'.journal = e :: b.journal)
    (he : e.mutates = false) : b'.mutations = b.mutations := by
  rw [mutations, mutations, hj, List.filter_cons, if_neg (by simp [he])]

theorem Same.act {b b' : Board} (h : b.Same b') (e : Event) : (e.act b).Same (e.act b') := by
  unfold Event.act
  split
  · exact ⟨h.chip.preset _ _, h.store⟩
  · exact ⟨h.chip.wiped _ _, h.store⟩
  · exact ⟨h.chip, h.store.put _ _⟩
  · exact h

theorem Same.replay {b b' : Board} (h : b.Same b') (calls : List Event) :
    (calls.foldl Event.act b).Same (calls.foldl Event.act b') := by
  induction calls generalizing b b' with
  | nil => exact h
  | cons e calls ih => exact ih (h.act e)

theorem size_act (b : Board) (e : Event) : (e.act b).chip.size = b.chip.size := by
  unfold Event.act
  split <;> rfl

theorem plain_act {b : Board} (h : b.store.Plain) (e : Event) : (e.act b).store.Plain := by
  unfold Event.act
  split
  · exact h
  · exact h
  · exact Store.plain_put h _ _
  · exact h

theorem size_replay (b : Board) (calls : List Event) :
    (calls.foldl Event.act b).chip.size = b.chip.size := by
  induction calls generalizing b with
  | nil => rfl
  | cons e calls ih => rw [List.foldl_cons, ih, size_act]

theorem plain_replay {b : Board} (h : b.store.Plain) (calls : List Event) :
    (calls.foldl Event.act b).store.Plain := by
  induction calls generalizing b with
  | nil => exact h
  | cons e calls ih => exact ih (plain_act h e)

theorem faultless_replay {b : Board} (h : b.Faultless) (calls : List Event) :
    (calls.foldl Event.act b).Faultless := by
  induction calls generalizing b with
  | nil => exact h
  | cons e calls ih =>
    refine ih ?_
    unfold Event.act
    split
    · exact ⟨h.chip, h.store⟩
    · exact ⟨h.chip, h.store⟩
    · exact ⟨h.chip, Store.faultless_put h.store _ _⟩
    · exact h

theorem faults_act (b : Board) (e : Event) : (e.act b).chip.faults = b.chip.faults := by
  unfold Event.act
  split <;> rfl

theorem faults_replay (b : Board) (calls : List Event) :
    (calls.foldl Event.act b).chip.faults = b.chip.faults := by
  induction calls generalizing b with
  | nil => rfl
  | cons e calls ih => rw [List.foldl_cons, ih, faults_act]

theorem byte_act {b : Board} {e : Event} {i : Nat} (hi : i < b.chip.size) (h : ¬e.Touches i) :
    (e.act b).chip.byte i = b.chip.byte i := by
  unfold Event.act
  split
  · exact Chip.byte_preset_of_not hi h
  · exact (Chip.byte_wiped _ _ _ hi).trans (if_neg h)
  · rfl
  · rfl

/-- A byte that no call touches stays. -/
theorem byte_replay {b : Board} {calls : List Event} {i : Nat} (hi : i < b.chip.size)
    (h : ∀ e ∈ calls, ¬e.Touches i) : (calls.foldl Event.act b).chip.byte i = b.chip.byte i := by
  induction calls generalizing b with
  | nil => rfl
  | cons e calls ih =>
    rw [List.foldl_cons, ih (by rwa [size_act]) fun e' he' => h e' (List.mem_cons_of_mem _ he'),
      byte_act hi (h e List.mem_cons_self)]

theorem value?_act {b : Board} {e : Event} {slot : Slot} (hp : b.store.Plain) (h : ¬e.Sets slot) :
    (e.act b).store.value? slot = b.store.value? slot := by
  unfold Event.act
  split
  · rfl
  · rfl
  · rw [Store.value?_put hp, if_neg (Ne.symm h)]
  · rfl

/-- A word that no call sets stays. -/
theorem value?_replay {b : Board} {calls : List Event} {slot : Slot} (hp : b.store.Plain)
    (h : ∀ e ∈ calls, ¬e.Sets slot) :
    (calls.foldl Event.act b).store.value? slot = b.store.value? slot := by
  induction calls generalizing b with
  | nil => rfl
  | cons e calls ih =>
    rw [List.foldl_cons, ih (plain_act hp e) fun e' he' => h e' (List.mem_cons_of_mem _ he'),
      value?_act hp (h e List.mem_cons_self)]

end Board

/-- Between the two states of the device these writes and erasures were called, and no others. -/
structure Does (calls : List Event) (b b' : Board) : Prop where
  mutations : b'.mutations = b.mutations ++ calls
  replay : (calls.foldl Event.act b).Same b'

namespace Does

variable {calls calls' : List Event} {b b' b'' : Board}

theorem refl (b : Board) : Does [] b b := ⟨by simp, .refl _⟩

theorem trans (h : Does calls b b') (h' : Does calls' b' b'') : Does (calls ++ calls') b b'' where
  mutations := by rw [h'.mutations, h.mutations, List.append_assoc]
  replay := by
    rw [List.foldl_append]
    exact (h.replay.replay calls').trans h'.replay

/-- A call that went into the journal and did what it does. -/
theorem single {e : Event} (hm : e.mutates = true) (hj : b'.journal = e :: b.journal)
    (hs : (e.act b).Same b') : Does [e] b b' := ⟨Board.mutations_of_mutates hj hm, hs⟩

/-- Calls that change nothing went into the journal. -/
theorem none (hj : b'.mutations = b.mutations) (hs : b.Same b') : Does [] b b' :=
  ⟨by rw [hj, List.append_nil], hs⟩

theorem plain (h : Does calls b b') (hp : b.store.Plain) : b'.store.Plain :=
  h.replay.store.plain (Board.plain_replay hp calls)

theorem faultless (h : Does calls b b') (hf : b.Faultless) : b'.Faultless :=
  h.replay.faultless (Board.faultless_replay hf calls)

theorem chip_faultless (h : Does calls b b') (hf : b.chip.Faultless) : b'.chip.Faultless := by
  refine h.replay.chip.faultless fun op n => ?_
  rw [Board.faults_replay]
  exact hf op n

theorem size (h : Does calls b b') : b'.chip.size = b.chip.size :=
  h.replay.chip.size.trans (Board.size_replay b calls)

theorem byte (h : Does calls b b') {i : Nat} (hi : i < b.chip.size)
    (ht : ∀ e ∈ calls, ¬e.Touches i) : b'.chip.byte i = b.chip.byte i := by
  rw [h.replay.chip.byte]
  exact Board.byte_replay hi ht

theorem value? (h : Does calls b b') {slot : Slot} (hp : b.store.Plain)
    (hs : ∀ e ∈ calls, ¬e.Sets slot) : b'.store.value? slot = b.store.value? slot :=
  (h.replay.store.value? slot).trans (Board.value?_replay hp hs)

/-- The last call decides what a word reads. -/
theorem value?_last {slot : Slot} {value : Word}
    (h : Does (calls ++ [.slotWrite slot value false]) b b') (hp : b.store.Plain) :
    b'.store.value? slot = some value := by
  have hplain := Board.plain_replay hp calls
  rw [h.replay.store.value?, List.foldl_append]
  exact (Store.value?_put hplain _ _ _).trans (if_pos rfl)

end Does

/-- Nothing was written or erased. -/
abbrev Silent (b b' : Board) : Prop := Does [] b b'

/-- The action writes and erases nothing, on the device. -/
abbrev Board.Quiet (x : Board.Action α) : Prop := Keeps Silent x

/-- The action writes and erases nothing. -/
abbrev Rig.Quiet (x : EStateM ε (Rig σ) α) : Prop := Keeps (fun r r' => Silent r.board r'.board) x

namespace Board.Quiet

variable {x : Board.Action α} {f : α → Board.Action β}

theorem pure (v : α) : Board.Quiet (Pure.pure v) := Keeps.pure Does.refl v

theorem ofExcept (y : Except UpdateError α) : Board.Quiet (MonadExcept.ofExcept y) :=
  Keeps.ofExcept Does.refl y

theorem bind (hx : Board.Quiet x) (hf : ∀ v, Board.Quiet (f v)) : Board.Quiet (x >>= f) :=
  Keeps.bind Does.trans hx hf

theorem readFlash (a : Aperture) (address : Word) (len : Nat) :
    Board.Quiet (a.read address len) := by
  refine (ofExcept _).bind fun offset b => ?_
  refine (a.through_ends (b.chip.read_ends offset len)).mono fun _ b' h => ?_
  obtain ⟨_, _, rfl⟩ | ⟨_, o, chip, ho, _, rfl⟩ := h
  · exact .refl _
  · have hc : b.chip.Same chip := by
      cases o with
      | ok v => exact ho.2.2
      | error e => exact ho.1
    exact Does.none (Board.mutations_of_not rfl rfl) ⟨hc, .refl _⟩

theorem reads : Board.KeptByReads Silent where
  refl := Does.refl
  trans := Does.trans
  flash := readFlash

theorem readWord (a : Aperture) (address : Word) : Board.Quiet (a.readWord address) :=
  reads.readWord a address

theorem readSlot (slot : Slot) : Board.Quiet (Board.readSlot slot) := by
  rintro ⟨chip, store, journal⟩
  unfold Board.readSlot
  refine Ends.get_bind ?_
  cases store with
  | memory m =>
    unfold Board.onMemory SlotMemory.read Ends
    dsimp only
    by_cases hf : m.failsRead (m.readCalls + 1) = true
    · rw [if_pos hf]
      exact Does.none (Board.mutations_of_not rfl rfl) ⟨.refl _, _, _, _, rfl⟩
    · rw [if_neg hf]
      exact Does.none (Board.mutations_of_not rfl rfl) ⟨.refl _, _, _, _, rfl⟩
  | record a address => exact (ofExcept _).bind (fun home => readWord a home) _

theorem bank1End (c : Config) (a : Aperture) : Board.Quiet (c.bank1End a) := reads.bank1End c a

theorem checkClear (c : Config) (a : Aperture) (bank2 : Word) :
    Board.Quiet (c.checkClear a bank2) := reads.checkClear c a bank2

end Board.Quiet

namespace Board

theorem writeSlot_does {b : Board} (h : b.store.Plain) (slot : Slot) (value : Word) :
    Ends (writeSlot slot value) b fun o b' => Does [.slotWrite slot value (!o.isOk)] b b' := by
  refine (writeSlot_ends h slot value).mono fun o b' ho => ?_
  cases o with
  | ok v => exact .single rfl ho.2.2 ⟨ho.1 ▸ .refl _, ho.2.1⟩
  | error e => exact .single rfl ho.2.2.2.1 ⟨ho.1 ▸ .refl _, ho.2.2.1⟩

end Board

namespace Aperture

/-- A write is not made at all, or it is in the journal with its fault. -/
theorem write_does (a : Aperture) (address : Word) (bytes : Bytes) (b : Board) :
    Ends (a.write address bytes) b fun o b' =>
      o.isOk = false ∧ Does [] b b' ∨
      ∃ offset fault, a.offset address = .ok offset ∧ fault.isNone = o.isOk ∧
        Does [.flash (.write offset bytes) fault] b b' := by
  unfold write
  cases hf : a.offset address with
  | error e => exact .inl ⟨rfl, .refl _⟩
  | ok offset =>
    refine (a.through_ends (b.chip.write_ends offset bytes)).mono fun o b' h => ?_
    obtain ⟨_, rfl, rfl⟩ | ⟨_, o, chip, ho, rfl, rfl⟩ := h
    · exact .inl ⟨rfl, .refl _⟩
    · refine .inr ⟨offset, Board.faultOf o, rfl, by cases o <;> rfl, .single rfl rfl ?_⟩
      cases o with
      | ok v => exact ⟨ho.2.2, .refl _⟩
      | error e => exact ⟨ho.1, .refl _⟩

/-- An erasure is not made at all, or it is in the journal with its fault. -/
theorem erase_does (a : Aperture) (address len : Word) (b : Board) :
    Ends (a.erase address len) b fun o b' =>
      o.isOk = false ∧ Does [] b b' ∨
      ∃ start stop fault, a.sectors address len = .ok (start, stop) ∧ fault.isNone = o.isOk ∧
        Does [.flash (.erase start stop) fault] b b' := by
  unfold erase
  cases hf : a.sectors address len with
  | error e => exact .inl ⟨rfl, .refl _⟩
  | ok range =>
    obtain ⟨start, stop⟩ := range
    refine (a.through_ends (b.chip.erase_ends start stop)).mono fun o b' h => ?_
    obtain ⟨_, rfl, rfl⟩ | ⟨_, o, chip, ho, rfl, rfl⟩ := h
    · exact .inl ⟨rfl, .refl _⟩
    · refine .inr ⟨start, stop, Board.faultOf o, rfl, by cases o <;> rfl, .single rfl rfl ?_⟩
      cases o with
      | ok v => exact ⟨ho.2.2, .refl _⟩
      | error e => exact ⟨ho.1, .refl _⟩

end Aperture

namespace Rig.Quiet

section
variable {x : EStateM ε (Rig σ) α} {f : α → EStateM ε (Rig σ) β}

theorem pure (v : α) : Rig.Quiet (Pure.pure v : EStateM ε (Rig σ) α) :=
  Keeps.pure (fun _ => .refl _) v

theorem ofExcept (y : Except ε α) : Rig.Quiet (MonadExcept.ofExcept y : EStateM ε (Rig σ) α) :=
  Keeps.ofExcept (fun _ => .refl _) y

theorem bind (hx : Rig.Quiet x) (hf : ∀ v, Rig.Quiet (f v)) : Rig.Quiet (x >>= f) :=
  Keeps.bind Does.trans hx hf

theorem guard {c : Prop} [Decidable c] {e : ε} {y : EStateM ε (Rig σ) β} (hy : Rig.Quiet y)
    {k : α → EStateM ε (Rig σ) β} : Rig.Quiet (if c then MonadExcept.throw e >>= k else y) :=
  Keeps.guard (fun _ => .refl _) hy

theorem during {x : Rig.Action σ α} (hx : Rig.Quiet x) (stage : Stage) :
    Rig.Quiet (Attempt.during stage x) := fun r => Ends.during ((hx r).mono fun _ _ h => h)

theorem yields (hx : Rig.Quiet x) (r : Rig σ) :
    Yields x r fun _ r' => Does [] r.board r'.board :=
  Yields.of_ends (hx r) fun _ _ h => h

end

theorem hear (answer : Answer IoKind σ α) (r : Rig σ) : Silent r.board (r.hear answer).board :=
  Does.none (by simp [Rig.hear, Board.mutations, Event.mutates]) ⟨.refl _, .refl _⟩

theorem onLink (call : σ → Answer IoKind σ α) : Rig.Quiet (Rig.onLink call) := fun r =>
  .onLink (hear (call r.link) r)

variable [Link σ]

theorem reads : Rig.KeptByReads σ Silent where
  toKeptByReads := Board.Quiet.reads
  link _ r := hear _ r

theorem receiveHeader : Rig.Quiet (Rig.receiveHeader : Rig.Action σ Bytes) := reads.receiveHeader

theorem receiveInfo : Rig.Quiet (FileInfo.receive : Rig.Action σ FileInfo) := reads.receiveInfo

theorem shakeHands (target : Bank) : Rig.Quiet (Attempt.shakeHands target : Rig.Action σ Unit) :=
  (onLink _).bind fun _ => guard (onLink _)

theorem refill (w : Window) : Rig.Quiet (Rig.refill w : Rig.Action σ Window) := reads.refill w

theorem verify (a : Aperture) (s : Summary) (ps : List Placement) :
    Rig.Quiet (Rig.verify a s ps : Rig.Action σ Unit) := reads.verify a s ps

end Rig.Quiet

/-! ## Relations that silence keeps -/

variable {R : Board → Board → Prop}

theorem Board.KeptByReads.of_silent (htrans : ∀ {b b' b''}, R b b' → R b' b'' → R b b'')
    (h : ∀ {b b'}, Silent b b' → R b b') : Board.KeptByReads R where
  refl b := h (.refl b)
  trans := htrans
  flash a address len := (Board.Quiet.readFlash a address len).mono fun _ _ => h

theorem Rig.KeptByReads.of_silent [Link σ] (htrans : ∀ {b b' b''}, R b b' → R b' b'' → R b b'')
    (h : ∀ {b b'}, Silent b b' → R b b') : Rig.KeptByReads σ R where
  toKeptByReads := .of_silent htrans h
  link _ r := h (Rig.Quiet.hear _ r)

end DualBank
