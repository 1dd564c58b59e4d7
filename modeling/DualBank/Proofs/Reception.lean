import DualBank.Attempt
import DualBank.Proofs.Serving

/-! What comes in before the images, over an honest connection: the file info and the header block.
Both are read whole, and nothing after them is taken from the connection. -/
namespace DualBank

variable {σ : Type}

namespace Bytes

theorem at?_exists {b : Bytes} {pos : Nat} (h : pos + 4 ≤ b.length) :
    ∃ w, Word.at? b pos = some w := by
  have hl : (b.drop pos).length = b.length - pos := List.length_drop
  unfold Word.at?
  match hd : b.drop pos with
  | b₀ :: b₁ :: b₂ :: b₃ :: rest => exact ⟨_, rfl⟩
  | [] | [_] | [_, _] | [_, _, _] =>
    rw [hd] at hl
    simp only [List.length_cons, List.length_nil] at hl
    omega

/-- A word is read from its four bytes. -/
theorem at?_take {b : Bytes} {pos n : Nat} (h : pos + 4 ≤ n) :
    Word.at? (b.take n) pos = Word.at? b pos := by
  refine Option.ext fun w => ?_
  have hbytes : ((b.take n).drop pos).take 4 = (b.drop pos).take 4 := by
    rw [List.drop_take, List.take_take, Nat.min_eq_left (by omega)]
  rw [Word.at?_eq_some, Word.at?_eq_some, hbytes, List.length_take]
  constructor
  · rintro ⟨hw, hl⟩
    exact ⟨hw, by omega⟩
  · rintro ⟨hw, hl⟩
    exact ⟨hw, by omega⟩

theorem pieces_take {size count n : Nat} {b : Bytes} (h : count * size ≤ n) :
    pieces size count (b.take n) = pieces size count b := by
  induction count generalizing b n with
  | zero => rfl
  | succ count ih =>
    have hsize : size ≤ n := by
      rw [Nat.succ_mul] at h
      omega
    have hrest : count * size ≤ n - size := by
      rw [Nat.succ_mul] at h
      omega
    rw [pieces, pieces, List.take_take, Nat.min_eq_left hsize, List.drop_take, ih hrest]

end Bytes

namespace Prologue

/-- The length of the header block that leads the bytes, as its prologue tells it. -/
def declared (b : Bytes) : Except ContainerError Nat := do (← decode b).blockLen

theorem blockLen_eq_ok {p : Prologue} {d : Nat} (h : p.blockLen = .ok d) :
    length ≤ d ∧ p.file.headerCount.toNat * p.recordLen.toNat + FileHeader.length = d := by
  unfold blockLen headerBlockLen at h
  split at h
  · cases h
  · rename_i hc
    cases h
    have hcount : 1 ≤ p.file.headerCount.toNat := by omega
    have hrecord : 24 ≤ p.recordLen.toNat := by
      have hl : ImageHeader.length = 24 := rfl
      omega
    have hprod := Nat.mul_le_mul hcount hrecord
    refine ⟨?_, rfl⟩
    simp only [length, FileHeader.length]
    omega

/-- The prologue is the first sixteen bytes. -/
theorem decode_take {b : Bytes} {n : Nat} (h : length ≤ n) (hb : length ≤ b.length) :
    decode (b.take n) = decode b := by
  simp only [length] at h hb
  have hlen : ¬(b.take n).length < length := by
    simp only [List.length_take, length]
    omega
  obtain ⟨version, hversion⟩ : ∃ w, Word.at? b 0 = some w := Bytes.at?_exists (by omega)
  obtain ⟨count, hcount⟩ : ∃ w, Word.at? b 4 = some w := Bytes.at?_exists (by omega)
  unfold decode FileHeader.decode
  rw [if_neg hlen, if_neg (by simp only [length]; omega), Bytes.at?_take (by omega),
    Bytes.at?_take (by omega), Bytes.at?_take (by omega), hversion, hcount]

theorem declared_take {b : Bytes} {n : Nat} (h : length ≤ n) (hb : length ≤ b.length) :
    declared (b.take n) = declared b := by
  rw [declared, declared, decode_take h hb]

/-- A block has its prologue in it. -/
theorem length_le_declared {b : Bytes} {d : Nat} (h : declared b = .ok d) : length ≤ d := by
  unfold declared at h
  cases hp : decode b with
  | error e => rw [hp] at h; cases h
  | ok p =>
    rw [hp] at h
    exact (blockLen_eq_ok h).1

end Prologue

namespace TargetHeader

/-- Bytes after a header block do not matter. -/
theorem parse_take {b : Bytes} {d : Nat} (h : Prologue.declared b = .ok d)
    (hb : Prologue.length ≤ b.length) (wanted : Tag) :
    parse (b.take d) wanted = parse b wanted := by
  unfold Prologue.declared at h
  cases hp : Prologue.decode b with
  | error e => rw [hp] at h; cases h
  | ok p =>
    rw [hp] at h
    obtain ⟨hd, hprod⟩ := Prologue.blockLen_eq_ok h
    have hlen : p.blockLen = .ok d := h
    have htake : (b.take d).length = min d b.length := List.length_take
    simp only [parse, Prologue.decode_take hd hb, hp, hlen, bind, Except.bind]
    by_cases hshort : b.length < d
    · rw [List.take_of_length_le (by omega)]
    · rw [if_neg (by omega), if_neg hshort, List.drop_take, Bytes.pieces_take (by omega)]

/-- A header that was read knows how long its block is. -/
theorem blockLen_of_parse {b : Bytes} {wanted : Tag} {t : TargetHeader}
    (h : parse b wanted = .ok t) :
    ∃ d, Prologue.declared b = .ok d ∧ t.blockLen = .ok d ∧ d ≤ b.length := by
  unfold parse at h
  cases hp : Prologue.decode b with
  | error e => rw [hp] at h; cases h
  | ok p =>
    rw [hp] at h
    cases hl : p.blockLen with
    | error e => simp only [bind, Except.bind, hl] at h; cases h
    | ok d =>
      simp only [bind, Except.bind, hl] at h
      by_cases hshort : b.length < d
      · rw [if_pos hshort] at h; cases h
      · rw [if_neg hshort] at h
        refine ⟨d, ?_, ?_, by omega⟩
        · simp only [Prologue.declared, hp, bind, Except.bind, hl]
        · split at h
          · cases h
          · split at h
            · cases h
            · cases h
              exact hl

end TargetHeader
namespace Rig

theorem onLink_ends {α : Type} {call : σ → Answer IoKind σ α} {r : Rig σ} {v : α}
    (h : (call r.link).result = .ok v) : Ends (onLink call) r fun o r' => o = .ok v ∧
      r'.link = (call r.link).link ∧ r'.buffer = r.buffer ∧ r.board.Same r'.board := by
  refine .onLink ?_
  rw [h]
  exact ⟨rfl, rfl, rfl, .refl _, .refl _⟩

variable [Link σ]

/-- From a connection that was to bring `D`, `n` bytes came into the buffer, at `pos`. -/
structure Took (r r' : Rig σ) (D : Bytes) (pos n : Nat) : Prop where
  le : n ≤ D.length
  serves : Link.Serves r'.link (D.drop n)
  buffer : r'.buffer = r.buffer.overlay pos (D.take n)
  board : r.board.Same r'.board

namespace Took

variable {r r' r'' : Rig σ} {D : Bytes} {pos m n : Nat}

theorem none (h : Link.Serves r.link D) : r.Took r D pos 0 :=
  ⟨Nat.zero_le _, h, by simp [Bytes.overlay_nil], .refl _⟩

theorem trans (h : r.Took r' D pos m) (h' : r'.Took r'' (D.drop m) (pos + m) n)
    (hpos : pos ≤ r.buffer.length) : r.Took r'' D pos (m + n) where
  le := by
    have hm := h.le
    have hn := h'.le
    rw [List.length_drop] at hn
    omega
  serves := by
    have hs := h'.serves
    rwa [List.drop_drop] at hs
  buffer := by
    have hlen : (D.take m).length = m := List.length_take_of_le h.le
    have hb := h'.buffer
    rw [h.buffer] at hb
    have ho := Bytes.overlay_overlay hpos (D.take m) ((D.drop m).take n)
    rw [hlen] at ho
    rw [hb, ho, List.take_add]
  board := h.board.trans h'.board

theorem length_buffer (h : r.Took r' D pos n) (hpos : pos + n ≤ r.buffer.length) :
    r'.buffer.length = r.buffer.length := by
  have hlen : (D.take n).length = n := List.length_take_of_le h.le
  rw [h.buffer, Bytes.length_overlay (by rwa [hlen])]

/-- What came to the front of the buffer can be read there. -/
theorem front (h : r.Took r' D 0 n) : r'.buffer.take n = D.take n := by
  have hlen : (D.take n).length = n := List.length_take_of_le h.le
  have htake := Bytes.take_overlay_zero r.buffer (D.take n)
  rwa [hlen, ← h.buffer] at htake

theorem serves_drop (h : r.Took r' D pos (min n D.length)) : Link.Serves r'.link (D.drop n) := by
  have hs := h.serves
  rwa [← List.drop_eq_drop_min] at hs

end Took

/-- A read brings something, unless nothing is left. -/
theorem readInto_ends {r : Rig σ} {D : Bytes} (h : Link.Serves r.link D) {start stop : Nat}
    (hroom : start < stop) : Ends (readInto start stop) r fun o r' => ∃ n, o = .ok n ∧
      n ≤ stop - start ∧ (D ≠ [] → 0 < n) ∧ r.Took r' D start n := by
  obtain ⟨n, hres, hle, hlen, hpos, hnext⟩ := Link.honest_serves.read h (Nat.sub_pos_of_lt hroom)
  refine (onLink_ends hres).bind (fun d r₁ hread => ?_) fun e r₁ hfailed => ?_
  · obtain ⟨hd, hlink, hbuffer, hboard⟩ := hread
    cases hd
    refine ⟨n, rfl, hle, hpos, hlen, hlink ▸ hnext, ?_, hboard⟩
    change r₁.buffer.overlay start ((D.take n).take (stop - start)) = _
    rw [hbuffer, List.take_take, Nat.min_eq_right hle]
  · cases hfailed.1

/-- The reads go on until the buffer is full or nothing is left. -/
theorem fill_ends {r : Rig σ} {D : Bytes} (h : Link.Serves r.link D) {start stop got : Nat}
    (hstop : stop ≤ r.buffer.length) : Ends (fill start stop got) r fun o r' =>
      o = .ok (got + min (stop - (start + got)) D.length) ∧
      r.Took r' D (start + got) (min (stop - (start + got)) D.length) := by
  induction hk : stop - (start + got) using Nat.strongRecOn generalizing r D got with
  | ind k ih =>
    unfold fill
    by_cases hfull : stop ≤ start + got
    · have hk0 : k = 0 := by omega
      subst hk0
      rw [if_pos hfull, Nat.zero_min]
      exact Ends.pure ⟨rfl, .none h⟩
    · rw [if_neg hfull]
      refine (readInto_ends h (by omega)).bind (fun count r₁ hread => ?_)
        fun e r₁ hfailed => by obtain ⟨_, he, _⟩ := hfailed; cases he
      obtain ⟨n, hn, hle, hpos, htook⟩ := hread
      cases hn
      by_cases hzero : count = 0
      · -- The connection has no more.
        have hnil : D = [] := Decidable.byContradiction fun hne => by
          have := hpos hne
          omega
        subst hzero hnil
        rw [dif_pos rfl, List.length_nil, Nat.min_zero]
        exact Ends.pure ⟨rfl, htook⟩
      · rw [dif_neg hzero, if_pos (by omega)]
        have hlen := htook.length_buffer (by omega)
        have hn := htook.le
        refine (ih (stop - (start + (got + count))) (by omega) htook.serves (by omega) rfl).mono
          fun o r₂ hnext => ?_
        obtain ⟨ho, hrest⟩ := hnext
        have hsum : count + min (stop - (start + (got + count))) (D.drop count).length =
            min k D.length := by
          rw [List.length_drop]
          omega
        rw [← Nat.add_assoc start] at hrest
        have htrans := htook.trans hrest (by omega)
        rw [← Nat.add_assoc start] at hsum
        rw [hsum] at htrans
        refine ⟨?_, htrans⟩
        rw [ho, ← Nat.add_assoc start, Nat.add_assoc got, hsum]

/-- The reads start with nothing. -/
theorem fill_anew_ends {r : Rig σ} {D : Bytes} (h : Link.Serves r.link D) {start stop : Nat}
    (hstop : stop ≤ r.buffer.length) : Ends (fill start stop 0) r fun o r' =>
      o = .ok (min (stop - start) D.length) ∧ r.Took r' D start (min (stop - start) D.length) := by
  have hfill : Ends (fill start stop 0) r _ := fill_ends h hstop
  simpa only [Nat.add_zero, Nat.zero_add] using hfill

end Rig

/-- The file info is the first twelve bytes, if there are as many. -/
theorem FileInfo.receive_ends [Link σ] {r : Rig σ} {D : Bytes} (h : Link.Serves r.link D) :
    Ends receive r fun o r' => r.board.Same r'.board ∧ r'.buffer = r.buffer ∧
      Link.Serves r'.link (D.drop length) ∧
      o = if D.length < length then .error .streamTruncated else .ok (decode (D.take length)) := by
  refine Ends.withBuffer ?_
  have hsize : (List.replicate length (0 : UInt8)).length = length := List.length_replicate
  refine (Rig.fill_anew_ends (r := { r with buffer := List.replicate length 0 }) h
    (Nat.le_of_eq hsize.symm)).bind (fun received r₁ hfilled => ?_) fun e r₁ hfailed => ?_
  · obtain ⟨hr, ht⟩ := hfilled
    cases hr
    rw [Nat.sub_zero] at ht ⊢
    refine Ends.guard (fun hc => ?_) fun hc => ?_
    · rw [if_pos (by omega)]
      exact ⟨ht.board, rfl, ht.serves_drop, rfl⟩
    · refine Ends.get_bind (Ends.pure ⟨ht.board, rfl, ht.serves_drop, ?_⟩)
      have hfull : length ≤ D.length := by omega
      rw [Nat.min_eq_left hfull] at ht
      have hlen : r₁.buffer.length = length := (ht.length_buffer (by simp)).trans hsize
      rw [if_neg (by omega), ← ht.front, List.take_of_length_le (by omega)]
  · cases hfailed.1

namespace Rig

/-- What the reading of a header block comes to, into a buffer that holds so many bytes. -/
def headerBlock (capacity : Nat) (b : Bytes) : Except UpdateError Bytes :=
  if capacity < Prologue.length then .error .headerTooLarge
  else if b.length < Prologue.length then .error .headerIncomplete
  else match Prologue.declared b with
    | .error e => .error (.ofContainer e)
    | .ok declared =>
      if capacity < declared then .error .headerTooLarge else .ok (b.take declared)

/-- A buffer that holds the prologue and the block that it declares is large enough. -/
def RoomFor (capacity : Nat) (b : Bytes) : Prop :=
  Prologue.length ≤ capacity ∧ ∀ d, Prologue.declared b = .ok d → d ≤ capacity

theorem headerBlock_congr {c₁ c₂ : Nat} {b : Bytes} (h₁ : RoomFor c₁ b) (h₂ : RoomFor c₂ b) :
    headerBlock c₁ b = headerBlock c₂ b := by
  unfold headerBlock
  rw [if_neg (Nat.not_lt.2 h₁.1), if_neg (Nat.not_lt.2 h₂.1)]
  cases hd : Prologue.declared b with
  | error e => rfl
  | ok d =>
    dsimp only
    rw [if_neg (Nat.not_lt.2 (h₁.2 d hd)), if_neg (Nat.not_lt.2 (h₂.2 d hd))]

theorem headerBlock_eq_ok {capacity : Nat} {b block : Bytes}
    (h : headerBlock capacity b = .ok block) : Prologue.length ≤ capacity ∧
      Prologue.length ≤ b.length ∧ ∃ d, Prologue.declared b = .ok d ∧ block = b.take d := by
  unfold headerBlock at h
  by_cases hc : capacity < Prologue.length
  · rw [if_pos hc] at h; cases h
  · rw [if_neg hc] at h
    by_cases hb : b.length < Prologue.length
    · rw [if_pos hb] at h; cases h
    · rw [if_neg hb] at h
      cases hd : Prologue.declared b with
      | error e => rw [hd] at h; cases h
      | ok d =>
        simp only [hd] at h
        by_cases hr : capacity < d
        · rw [if_pos hr] at h; cases h
        · rw [if_neg hr] at h
          cases h
          exact ⟨by omega, by omega, d, rfl, rfl⟩

variable [Link σ]

/-- The rest of a header block, behind its prologue. -/
theorem blockRest_ends {r r₀ : Rig σ} {C : Bytes} {d : Nat} (ht : r₀.Took r C 0 Prologue.length)
    (hle : Prologue.length ≤ d) (hroom : d ≤ r₀.buffer.length) :
    Ends (do
      let more ← fill Prologue.length d 0
      match (← get).buffer.slice? 0 (more + Prologue.length) with
      | some block => return block
      | none => throw .headerIncomplete : Action σ Bytes) r fun o r' => o = .ok (C.take d) ∧
        r₀.board.Same r'.board ∧ r'.buffer.length = r₀.buffer.length ∧
        Link.Serves r'.link (C.drop d) := by
  have hlen := ht.length_buffer (by omega)
  have hlong := ht.le
  refine (fill_anew_ends ht.serves (by omega)).bind (fun more r₁ hfilled => ?_)
    fun e r₁ hfailed => ?_
  · obtain ⟨hm, hrest⟩ := hfilled
    cases hm
    have hsum : Prologue.length + min (d - Prologue.length) (C.drop Prologue.length).length =
        min d C.length := by
      rw [List.length_drop]
      omega
    rw [← Nat.zero_add Prologue.length] at hrest
    have htook := ht.trans hrest (Nat.zero_le _)
    simp only [Nat.zero_add] at htook
    rw [hsum] at htook
    have hlen₁ := htook.length_buffer (by omega)
    have hblock : r₁.buffer.slice? 0 (min (d - Prologue.length)
        (C.drop Prologue.length).length + Prologue.length) = some (C.take d) := by
      rw [Nat.add_comm, hsum, Bytes.slice?_eq_some]
      refine ⟨Nat.zero_le _, by omega, ?_⟩
      rw [List.drop_zero, Nat.sub_zero, htook.front, ← List.take_eq_take_min]
    refine Ends.get_bind ?_
    rw [hblock]
    exact Ends.pure ⟨rfl, htook.board, hlen₁, htook.serves_drop⟩
  · cases hfailed.1

/-- A header block is read whole, and nothing after it. -/
theorem receiveHeader_ends {r : Rig σ} {C : Bytes} (h : Link.Serves r.link C) :
    Ends receiveHeader r fun o r' => o = headerBlock r.buffer.length C ∧
      r.board.Same r'.board ∧ r'.buffer.length = r.buffer.length ∧
      (o.isOk = true → ∀ d, Prologue.declared C = .ok d → Link.Serves r'.link (C.drop d)) := by
  unfold receiveHeader headerBlock
  refine Ends.get_bind (Ends.guard (fun hc => ?_) fun hc => ?_)
  · rw [if_pos hc]
    exact ⟨rfl, .refl _, rfl, fun hk => by cases hk⟩
  · rw [if_neg hc]
    have hcap : Prologue.length ≤ r.buffer.length := by omega
    refine (fill_anew_ends h hcap).bind (fun received r₁ hfilled => ?_) fun e r₁ hfailed => ?_
    · obtain ⟨hr, ht⟩ := hfilled
      cases hr
      rw [Nat.sub_zero] at ht ⊢
      have hlen := ht.length_buffer (by omega)
      refine Ends.guard (fun hs => ?_) fun hs => ?_
      · rw [if_pos (by omega)]
        exact ⟨rfl, ht.board, hlen, fun hk => by cases hk⟩
      · have hlong : Prologue.length ≤ C.length := by omega
        rw [if_neg (by omega)]
        rw [Nat.min_eq_left hlong] at ht
        refine Ends.get_bind ?_
        rw [ht.front]
        change Ends ((MonadExcept.ofExcept ((Prologue.declared (C.take Prologue.length)).mapError
          UpdateError.ofContainer) : Action σ Nat) >>= _) r₁ _
        rw [Prologue.declared_take (Nat.le_refl _) hlong]
        cases hd : Prologue.declared C with
        | error e => exact ⟨rfl, ht.board, hlen, fun hk => by cases hk⟩
        | ok d =>
          have hle := Prologue.length_le_declared hd
          refine (Ends.ofExcept (Q := fun o r' => o = .ok d ∧ r' = r₁) ⟨rfl, rfl⟩).bind
            (fun v r₂ hv => ?_) fun e r₂ hfailed => ?_
          · obtain ⟨hv, rfl⟩ := hv
            cases hv
            dsimp only
            refine Ends.guard (fun hs => ?_) fun hs => ?_
            · rw [if_pos hs]
              exact ⟨rfl, ht.board, hlen, fun hk => by cases hk⟩
            · rw [if_neg hs]
              refine (blockRest_ends ht hle (by omega)).mono fun o r₃ hread => ?_
              obtain ⟨ho, hboard, hlen₃, hserves⟩ := hread
              refine ⟨ho, hboard, hlen₃, fun _ d' hd' => ?_⟩
              cases hd'
              exact hserves
          · cases hfailed.1
    · cases hfailed.1

end Rig
end DualBank
