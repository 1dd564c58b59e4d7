import Mathlib.Data.List.Basic
import DualBank.Wire.Codec

/-! Commands and replies on the wire. A frame has one zero byte, its last, and gives back the bytes
that were put into it, whatever follows. The binary form of a value gives back the value in the same
way. So a value that is framed is read as it was. -/
namespace DualBank.Wire

/-! ## Frames -/

namespace Cobs

variable {group b : Bytes}

/-- The code byte of a group says how long the group is. -/
theorem toNat_code {n : Nat} (h : n ≤ groupMax) : (UInt8.ofNat (n + 1)).toNat = n + 1 := by
  rw [groupMax] at h
  exact UInt8.toNat_ofNat_of_lt' (Nat.lt_of_le_of_lt (Nat.succ_le_succ h) (by decide))

theorem groups_ne_nil (group b : Bytes) : groups group b ≠ [] := by
  induction b generalizing group with
  | nil => simp [groups]
  | cons x b ih =>
    rw [groups]
    split
    · simp
    · split
      · simp
      · exact ih _

/-- One group is taken off the front of a row. -/
theorem ungroup_cons (more : Bytes) (h : group.length ≤ groupMax) :
    ungroup (.ofNat (group.length + 1) :: (group ++ more)) =
      (ungroup more).map fun rest =>
        group ++ (if group.length = groupMax ∨ more = [] then [] else [0]) ++ rest := by
  have hcode := toNat_code h
  have hlast : (group ++ more).length = group.length ↔ more = [] := by
    rw [List.length_append, Nat.add_eq_left, List.length_eq_zero_iff]
  rw [ungroup]
  simp only [hcode, Nat.add_sub_cancel, Nat.add_right_cancel_iff, hlast, List.take_left,
    List.drop_left]
  rw [if_neg (by rw [List.length_append]; omega)]
  cases ungroup more <;> rfl

/-- A row of groups gives back its data. -/
theorem ungroup_groups (h : group.length < groupMax) : ungroup (groups group b) =
    some (group ++ b) := by
  induction b generalizing group with
  | nil =>
    have hlast := ungroup_cons [] (Nat.le_of_lt h)
    rw [List.append_nil] at hlast
    rw [groups, hlast, ungroup]
    simp
  | cons x b ih =>
    have hempty : ungroup (groups [] b) = some b := ih (by decide)
    rw [groups]
    split
    · -- The group ends with a zero, which is left out.
      rename_i hzero
      rw [List.cons_append, ungroup_cons _ (Nat.le_of_lt h), hempty,
        if_neg (by simp [groups_ne_nil, Nat.ne_of_lt h]), hzero]
      simp
    · split
      · -- The group is full. No zero is left out.
        rename_i hfull
        have hlen : (group ++ [x]).length = groupMax := by simpa using hfull
        have hgroup := ungroup_cons (groups [] b) (Nat.le_of_eq hlen)
        rw [hlen, hempty, if_pos (.inl rfl)] at hgroup
        simpa using hgroup
      · rename_i hfull
        rw [ih (by simpa using Nat.lt_of_le_of_ne h hfull)]
        simp

/-- Neither codes nor bytes of groups are zero. -/
theorem zero_notMem_groups (h : group.length < groupMax) (hgroup : 0 ∉ group) :
    0 ∉ groups group b := by
  have hcode : ∀ {n : Nat}, n ≤ groupMax → (0 : UInt8) ≠ .ofNat (n + 1) := by
    intro n hn hzero
    have hnat := toNat_code hn
    rw [← hzero] at hnat
    exact absurd hnat (by simp)
  induction b generalizing group with
  | nil =>
    rw [groups, List.mem_cons, not_or]
    exact ⟨hcode (Nat.le_of_lt h), hgroup⟩
  | cons x b ih =>
    have hempty : 0 ∉ groups [] b := ih (by decide) (by simp)
    rw [groups]
    split
    · simp only [List.cons_append, List.mem_cons, List.mem_append, not_or]
      exact ⟨hcode (Nat.le_of_lt h), hgroup, hempty⟩
    · rename_i hx
      have hx' : (0 : UInt8) ≠ x := Ne.symm hx
      split
      · simp only [List.cons_append, List.mem_cons, List.mem_append, not_or]
        exact ⟨hcode (Nat.le_refl groupMax), hgroup, hx', hempty⟩
      · rename_i hfull
        exact ih (by simpa using Nat.lt_of_le_of_ne h hfull) (by simp [hgroup, hx'])

theorem length_groups_le (h : group.length < groupMax) : (groups group b).length ≤
    group.length + b.length + (group.length + b.length) / groupMax + 1 := by
  induction b generalizing group with
  | nil => simp [groups]
  | cons x b ih =>
    have hempty := @ih [] (by decide)
    rw [groups]
    rw [groupMax] at *
    split
    · simp only [List.cons_append, List.length_cons, List.length_append, List.length_nil] at *
      omega
    · split
      · simp only [List.cons_append, List.length_cons, List.length_append, List.length_nil] at *
        omega
      · have hnext := @ih (group ++ [x]) (by simp; omega)
        simp only [List.length_cons, List.length_append, List.length_nil] at *
        omega

theorem le_length_groups (group b : Bytes) :
    group.length + b.length + 1 ≤ (groups group b).length := by
  induction b generalizing group with
  | nil => simp [groups]
  | cons x b ih =>
    have hempty := ih []
    have hnext := ih (group ++ [x])
    rw [groups]
    simp only [List.length_append, List.length_cons, List.length_nil] at *
    split
    · simp only [List.cons_append, List.length_cons, List.length_append]
      omega
    · split
      · simp only [List.cons_append, List.length_cons, List.length_append]
        omega
      · omega

/-- The last byte of a frame is zero, and no other. -/
theorem encode_eq (b : Bytes) : ∃ body, encode b = body ++ [0] ∧ 0 ∉ body :=
  ⟨groups [] b, rfl, zero_notMem_groups (by decide) (by simp)⟩

/-- A frame gives back its data, whatever follows it. -/
theorem decode_encode (b rest : Bytes) : decode (encode b ++ rest) = some b := by
  have hbody : ∀ x ∈ groups [] b, (x != 0) = true := by
    intro x hx
    have hzero : 0 ∉ groups [] b := zero_notMem_groups (by decide) (by simp)
    exact bne_iff_ne.2 fun h => hzero (h ▸ hx)
  have hframe : (encode b ++ rest).takeWhile (· != 0) = groups [] b := by
    rw [encode, List.append_assoc, List.takeWhile_append_of_pos hbody]
    simp
  rw [decode, if_neg (by simp [encode]), hframe, ungroup_groups (by decide), List.nil_append]

/-- A frame is little longer than its data. -/
theorem length_encode_le (b : Bytes) :
    (encode b).length ≤ b.length + b.length / groupMax + 2 := by
  have h : (groups [] b).length ≤ 0 + b.length + (0 + b.length) / groupMax + 1 :=
    length_groups_le (by decide)
  rw [Nat.zero_add] at h
  rw [encode, List.length_append, List.length_singleton]
  omega

/-- It is never shorter than with one code and the zero at its end. -/
theorem le_length_encode (b : Bytes) : b.length + 2 ≤ (encode b).length := by
  have h := le_length_groups [] b
  rw [List.length_nil, Nat.zero_add] at h
  rw [encode, List.length_append, List.length_singleton]
  omega

end Cobs

/-! ## Values -/

namespace Codec

variable {α β : Type} {c : Codec α}

/-- What is written is read, and what follows it is left. -/
def Faithful (c : Codec α) : Prop :=
  ∀ (a : α) (rest : Bytes), c.read (c.write a ++ rest) = some (a, rest)

/-- A value that is framed is read as it was. -/
theorem Faithful.unframe?_frame (h : c.Faithful) (a : α) (rest : Bytes) :
    c.unframe? (c.frame a ++ rest) = some a := by
  have hread := h a []
  rw [List.append_nil] at hread
  rw [unframe?, frame, Cobs.decode_encode]
  simp only [Option.bind_eq_bind, Option.bind_some, decode?, hread, Option.map_some]

/-- One reader after another. -/
theorem read_bind {x : StateT Bytes Option α} {f : α → StateT Bytes Option β} {b rest : Bytes}
    {a : α} (h : x b = some (a, rest)) : (x >>= f) b = f a rest := by
  simp only [bind, StateT.bind, h, Option.bind_some]

theorem read_map {x : StateT Bytes Option α} {f : α → β} {b rest : Bytes} {a : α}
    (h : x b = some (a, rest)) : (f <$> x) b = some (f a, rest) := by
  simp only [Functor.map, StateT.map, bind, h, Option.bind_some, pure]

theorem caseNumber_write {n : Nat} (h : n < UInt32.size) (rest : Bytes) :
    caseNumber (Varint.write n ++ rest) = some (n, rest) :=
  Varint.read_write rest (by decide) (by decide) h

theorem byte_faithful : byte.Faithful := fun _ _ => rfl

theorem word16_faithful : word16.Faithful := fun n rest => by
  have hread : varint 3 UInt16.size (word16.write n ++ rest) = some (n.toNat, rest) :=
    Varint.read_write rest (by decide) (by decide) n.toNat_lt_size
  have hword := read_map (f := UInt16.ofNat) hread
  rwa [UInt16.ofNat_toNat] at hword

theorem readBytes_append (b rest : Bytes) : readBytes b.length (b ++ rest) = some (b, rest) := by
  rw [readBytes, if_pos (by simp), List.take_left, List.drop_left]

theorem text_faithful {capacity : Nat} (h : capacity < UInt64.size) : (text capacity).Faithful := by
  intro t rest
  have hlen : t.value.toUTF8.data.toList.length = t.value.utf8ByteSize := rfl
  have hsize : varint 10 UInt64.size (Varint.write t.value.utf8ByteSize ++
      (t.value.toUTF8.data.toList ++ rest)) =
      some (t.value.utf8ByteSize, t.value.toUTF8.data.toList ++ rest) :=
    Varint.read_write _ (by decide) (by decide) (Nat.lt_of_le_of_lt t.fits h)
  have hbytes := readBytes_append t.value.toUTF8.data.toList rest
  rw [hlen] at hbytes
  have hvalid : String.fromUTF8? ⟨t.value.toUTF8.data.toList.toArray⟩ = some t.value := by
    rw [Array.toArray_toList, String.fromUTF8?]
    exact dif_pos t.value.isValidUTF8
  have hwrite : (text capacity).write t ++ rest = Varint.write t.value.utf8ByteSize ++
      (t.value.toUTF8.data.toList ++ rest) := List.append_assoc _ _ _
  rw [hwrite]
  change (varint 10 UInt64.size >>= fun n => readBytes n >>= fun b => _) _ = _
  rw [read_bind hsize, read_bind hbytes]
  simp only [hvalid, bind, StateT.bind, StateT.lift, Option.bind_some, t.fit?_value, pure]

theorem enumeration_faithful [BEq α] [LawfulBEq α] {cases : List α} (hall : ∀ a, a ∈ cases)
    (h : cases.length ≤ UInt32.size) : (enumeration cases).Faithful := by
  intro a rest
  have hidx : cases.idxOf a < cases.length := List.idxOf_lt_length_iff.2 (hall a)
  have hcase : cases[cases.idxOf a]? = some a := by
    rw [List.getElem?_eq_getElem hidx, List.getElem_idxOf]
  refine (read_bind (caseNumber_write (Nat.lt_of_lt_of_le hidx h) rest)).trans ?_
  simp only [hcase, StateT.lift, bind, Option.bind_some, pure]

theorem bank_faithful : bank.Faithful :=
  enumeration_faithful (fun a => by cases a <;> simp) (by decide)

theorem refusal_faithful : refusal.Faithful :=
  enumeration_faithful (fun a => by cases a <;> simp) (by decide)

theorem command_faithful : command.Faithful := by
  intro c rest
  cases c with
  | selectBank b =>
    have hwrite : command.write (.selectBank b) ++ rest =
        Varint.write 2 ++ (bank.write b ++ rest) := List.append_assoc _ _ _
    rw [hwrite]
    refine (read_bind (caseNumber_write (by decide) _)).trans ?_
    exact (read_bind (bank_faithful b rest)).trans rfl
  | start source =>
    cases source with
    | direct x₀ x₁ x₂ x₃ port =>
      have hwrite : command.write (.start (.direct x₀ x₁ x₂ x₃ port)) ++ rest =
          Varint.write 0 ++ ([x₀, x₁, x₂, x₃] ++ (word16.write port ++ rest)) := by
        simp [command]
      rw [hwrite]
      refine (read_bind (caseNumber_write (by decide) _)).trans ?_
      refine (read_bind (byte_faithful x₀ _)).trans ((read_bind (byte_faithful x₁ _)).trans ?_)
      refine (read_bind (byte_faithful x₂ _)).trans ((read_bind (byte_faithful x₃ _)).trans ?_)
      exact (read_bind (word16_faithful port rest)).trans rfl
    | http host port resource =>
      have hwrite : command.write (.start (.http host port resource)) ++ rest =
          Varint.write 1 ++ ((text 63).write host ++ (word16.write port ++
            ((text 63).write resource ++ rest))) := by
        simp [command]
      have htext : (text 63).Faithful := text_faithful (by decide)
      rw [hwrite]
      refine (read_bind (caseNumber_write (by decide) _)).trans ?_
      refine (read_bind (htext host _)).trans ((read_bind (word16_faithful port _)).trans ?_)
      exact (read_bind (htext resource rest)).trans rfl

theorem reply_faithful : reply.Faithful := by
  intro r rest
  cases r with
  | accepted => exact (read_bind (caseNumber_write (n := 0) (by decide) rest)).trans rfl
  | rejected reason =>
    have hwrite : reply.write (.rejected reason) ++ rest =
        Varint.write 1 ++ (refusal.write reason ++ rest) := List.append_assoc _ _ _
    rw [hwrite]
    refine (read_bind (caseNumber_write (by decide) _)).trans ?_
    exact (read_bind (refusal_faithful reason rest)).trans rfl
  | bankSelected b =>
    have hwrite : reply.write (.bankSelected b) ++ rest =
        Varint.write 2 ++ (bank.write b ++ rest) := List.append_assoc _ _ _
    rw [hwrite]
    refine (read_bind (caseNumber_write (by decide) _)).trans ?_
    exact (read_bind (bank_faithful b rest)).trans rfl

/-- Three bytes say that an update was let in. Any other reply takes four. -/
theorem length_frame_reply (r : Reply) :
    (reply.frame r).length = if r = .accepted then 3 else 4 := by
  have hcase : ∀ {n : Nat}, n < 128 → (Varint.write n).length = 1 := by
    intro n hn
    rw [Varint.write, if_pos hn, List.length_singleton]
  have hwrite : (reply.write r).length = if r = .accepted then 1 else 2 := by
    cases r with
    | accepted => simp [reply, hcase]
    | rejected reason => cases reason <;> simp [reply, refusal, enumeration, hcase]
    | bankSelected b => cases b <;> simp [reply, bank, enumeration, hcase]
  have hle := Cobs.length_encode_le (reply.write r)
  have hge := Cobs.le_length_encode (reply.write r)
  rw [frame]
  rw [Cobs.groupMax] at hle
  split_ifs at * <;> omega

/-- No reply takes more than four bytes. -/
theorem length_frame_reply_le (r : Reply) : (reply.frame r).length ≤ 4 := by
  rw [length_frame_reply]
  split <;> decide

end Codec
end DualBank.Wire
