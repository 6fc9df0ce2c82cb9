/-
  The assembler under any calls: what it gives away.

  1. `emitted_eq`: the emitted instructions are the longest row of accepted cells, from the first one on, with known labels.
     A cell in it keeps its instruction (`placedAt_mono`), so later calls only add to them (`emitted_mono`), and the
     end adds nothing (`finish_eq_emitted`).
  2. `IsPendingOn` says that the label table keeps a slot for a label.  These are the jumps to labels that are not known, each
     under its own label (`isPendingOn_iff`, `isPendingOn_of_pending`), and they stand in the queue (`getElem?_queue`).
  3. `IsDone` says that a slot waits for nothing.  A slot that is done stays as it is (`slot_of_isDone`), so one call alone
     makes it so (`existsUnique_resolving`), or none does (`not_resolves`).
-/
import M32.Proofs.Assembly.Stream
import Mathlib.Data.List.TakeWhile
import Mathlib.Data.Nat.Find

namespace M32.Assembly.Stream

open TwoPass (cellsOf slotAt waiting definition? indexOf)

variable {cs ds : List Call}

/-! ## Emitted instructions -/

/-- The instruction of an accepted cell at its place, with the index of its label. -/
def placedAt (cs : List Call) (i : Nat) (x : Nat × Cell) : Placed :=
  ⟨UInt32.ofNat (4 * i), x.1, x.2.aimed fun name => UInt32.ofNat (indexOf (texts cs) name)⟩

theorem size_texts (cs : List Call) : TwoPass.size (texts cs) = (accepted cs).length := by
  rw [TwoPass.size, ← map_accepted, List.length_map]

theorem placed_slotAt (bound : (accepted cs).length < Instr.indexLimit) (i : Nat) {x : Nat × Cell} (h : isKnown cs x = true) :
    (slotAt (texts cs) i x).placed = placedAt cs i x := by
  obtain ⟨line, x⟩ := x
  cases x with
  | instr i => rfl
  | jump link name =>
    have known : (definition? name (texts cs)).isSome := h
    obtain ⟨d, hd⟩ := Option.isSome_iff_exists.1 known
    have index : TwoPass.wordIndex d.1 = UInt32.ofNat (indexOf (texts cs) name) := by
      rw [← size_texts] at bound
      rw [← TwoPass.wordIndex_indexOf bound, indexOf, hd]
      rfl
    simp only [slotAt, hd, placedAt, Cell.aimed, index]

theorem placedAt_mono {x : Nat × Cell} (h : isKnown cs x = true) (ds : List Call) (i : Nat) :
    placedAt (cs ++ ds) i x = placedAt cs i x := by
  obtain ⟨line, x⟩ := x
  cases x with
  | instr i => rfl
  | jump link name =>
    have known : (definition? name (texts cs)).isSome := h
    obtain ⟨d, hd⟩ := Option.isSome_iff_exists.1 known
    simp only [placedAt, Cell.aimed, indexOf, hd, definition?_mono hd]

/-- The accepted cells up to the first with a label that is not known. -/
def settledCells (cs : List Call) : List (Nat × Cell) := (accepted cs).takeWhile (isKnown cs)

theorem getElem?_settledCells {i : Nat} {x : Nat × Cell} (h : (settledCells cs)[i]? = some x) :
    isKnown cs x = true := List.mem_takeWhile_imp (List.mem_of_getElem? h)

theorem emitted_eq (bound : (accepted cs).length < Instr.indexLimit) :
    (state cs).emitted = (settledCells cs).mapIdx (placedAt cs) := by
  have cells : settledCells cs = (accepted cs).take (state cs).settled := by
    rw [settledCells, List.takeWhile_eq_take_findIdx_not, settled_eq]
  apply List.ext_getElem?
  intro i
  have read : (state cs).emitted[i]? = (settledCells cs)[i]?.map fun x => (slotAt (texts cs) i x).placed := by
    rw [Assembler.emitted, toList_slots, cells, List.getElem?_map, List.getElem?_take, List.getElem?_take]
    split
    · rw [List.getElem?_mapIdx, Option.map_map]; rfl
    · rfl
  rw [read, List.getElem?_mapIdx]
  cases hx : (settledCells cs)[i]? with
  | none => rfl
  | some x => exact congrArg some (placed_slotAt bound i (getElem?_settledCells hx))

theorem takeWhile_prefix_takeWhile {α : Type} {p q : α → Bool} {xs ys : List α} (h : xs <+: ys)
    (hq : ∀ x, p x = true → q x = true) : xs.takeWhile p <+: ys.takeWhile q := by
  obtain ⟨zs, rfl⟩ := h
  induction xs with
  | nil => exact List.nil_prefix
  | cons x xs ih =>
    rw [List.cons_append, List.takeWhile_cons, List.takeWhile_cons]
    cases hx : p x with
    | false => exact List.nil_prefix
    | true =>
      rw [hq x hx]
      exact List.cons_prefix_cons.2 ⟨rfl, ih⟩

/-- What is emitted stays, whatever is called later. -/
theorem emitted_mono (bound : (accepted (cs ++ ds)).length < Instr.indexLimit) :
    (state cs).emitted <+: (state (cs ++ ds)).emitted := by
  have fewer : (accepted cs).length < Instr.indexLimit := Nat.lt_of_le_of_lt (accepted_mono cs ds).length_le bound
  have cells : settledCells cs <+: settledCells (cs ++ ds) :=
    takeWhile_prefix_takeWhile (accepted_mono cs ds) fun x hx => isKnown_mono hx ds
  rw [emitted_eq fewer, emitted_eq bound, List.prefix_iff_getElem?]
  intro i hi
  rw [List.length_mapIdx] at hi
  have here : (settledCells cs)[i]? = some (settledCells cs)[i] := List.getElem?_eq_getElem hi
  rw [List.getElem?_mapIdx, List.prefix_iff_getElem?.1 cells i hi, Option.map_some,
    placedAt_mono (getElem?_settledCells here), List.getElem_mapIdx]

/-! ## Waiting slots -/

/-- Whether the label table keeps a slot for a label. -/
def IsPendingOn (a : Assembler) (n : Nat) (name : String) : Prop :=
  ∃ ns, a.labels.find? name = some (.waiting ns) ∧ n ∈ ns

theorem mem_waiting_iff {n : Nat} {name : String} :
    n ∈ waiting (texts cs) name ↔ ∃ line link, (accepted cs)[n]? = some (line, .jump link name) := by
  rw [TwoPass.mem_waiting_iff, ← map_accepted, List.getElem?_map]
  constructor
  · rintro ⟨link, h⟩
    obtain ⟨⟨line, c⟩, hx, rfl⟩ := Option.map_eq_some_iff.1 h
    exact ⟨line, link, hx⟩
  · rintro ⟨line, link, h⟩
    exact ⟨link, by rw [h]; rfl⟩

/-- The slots that wait for a label are those of the jumps to it, while it is not defined. -/
theorem isPendingOn_iff {n : Nat} {name : String} :
    IsPendingOn (state cs) n name ↔
      definition? name (texts cs) = none ∧ ∃ line link, (accepted cs)[n]? = some (line, .jump link name) := by
  rw [← mem_waiting_iff]
  constructor
  · rintro ⟨ns, hf, hn⟩
    obtain ⟨hd, rfl, -⟩ := find?_eq_waiting_iff.1 hf
    exact ⟨hd, hn⟩
  · rintro ⟨hd, hn⟩
    refine ⟨_, find?_eq_waiting_iff.2 ⟨hd, rfl, ?_⟩, hn⟩
    exact List.ne_nil_of_mem hn

theorem waiting_nodup {name : String} {ns : List Nat} (h : (state cs).labels.find? name = some (.waiting ns)) : ns.Nodup := by
  obtain ⟨-, rfl, -⟩ := find?_eq_waiting_iff.1 h
  have all : ((TwoPass.cells (texts cs)).zipIdx.map (·.2)).Nodup := by
    rw [List.zipIdx_map_snd]
    exact List.nodup_range' 1
  exact all.sublist (List.filter_sublist.map _)

/-- A slot that waits stands in the queue. -/
theorem getElem?_queue {n : Nat} {name : String} (h : IsPendingOn (state cs) n name) :
    (state cs).settled ≤ n ∧ ∃ s, (state cs).queue[n - (state cs).settled]? = some s ∧ s.pending = true := by
  obtain ⟨hd, line, link, hx⟩ := isPendingOn_iff.1 h
  have unknown : isKnown cs (line, .jump link name) = false := by
    show (definition? name (texts cs)).isSome = false
    rw [hd]; rfl
  have behind : (state cs).settled ≤ n := by
    rw [settled_eq]
    -- all cells before the count are known
    by_contra before
    have lt := Nat.lt_of_not_le before
    have clear := List.not_of_lt_findIdx lt
    have here : (accepted cs).get ⟨n, Nat.lt_of_lt_of_le lt List.findIdx_le_length⟩ = (line, .jump link name) :=
      (List.getElem?_eq_some_iff.1 hx).2
    rw [List.get_eq_getElem] at here
    rw [here, unknown] at clear
    cases clear
  refine ⟨behind, slotAt (texts cs) n (line, .jump link name), ?_, ?_⟩
  · rw [Assembler.queue, List.getElem?_drop, Nat.add_sub_cancel' behind, Array.getElem?_toList, getElem?_slots, hx]
    rfl
  · rw [pending_slotAt, unknown]
    rfl

/-- A pending slot waits for the label of its jump, and for it alone and once. -/
theorem isPendingOn_of_pending {n : Nat} {s : Slot} (hs : (state cs).slots[n]? = some s) (pending : s.pending = true) :
    ∃ line link name, (accepted cs)[n]? = some (line, .jump link name) ∧ (∀ other, IsPendingOn (state cs) n other ↔ other = name) ∧
      ∀ ns, (state cs).labels.find? name = some (.waiting ns) → ns.count n = 1 := by
  rw [getElem?_slots] at hs
  obtain ⟨⟨line, x⟩, hx, rfl⟩ := Option.map_eq_some_iff.1 hs
  rw [pending_slotAt, Bool.not_eq_true'] at pending
  cases x with
  | instr i => cases pending
  | jump link name =>
    have hd : definition? name (texts cs) = none :=
      Option.isNone_iff_eq_none.1 (Option.isSome_eq_false_iff.1 pending)
    refine ⟨line, link, name, hx, ?_, ?_⟩
    · intro other
      rw [isPendingOn_iff]
      constructor
      · rintro ⟨-, line', link', hx'⟩
        rw [hx] at hx'
        cases hx'
        rfl
      · rintro rfl
        exact ⟨hd, line, link, hx⟩
    · intro ns hf
      refine List.count_eq_one_of_mem (waiting_nodup hf) ?_
      obtain ⟨-, rfl, -⟩ := find?_eq_waiting_iff.1 hf
      exact mem_waiting_iff.2 ⟨line, link, hx⟩

/-! ### The end -/

theorem isKnown_of_finish {placed : List Placed} (h : (state cs).finish = .ok placed) : ∀ x ∈ accepted cs, isKnown cs x = true := by
  intro x hx
  obtain ⟨line, x⟩ := x
  cases x with
  | instr i => rfl
  | jump link name =>
    cases hd : definition? name (texts cs) with
    | some d =>
      show (definition? name (texts cs)).isSome = true
      rw [hd]; rfl
    | none =>
      -- the label would be among those that still wait
      obtain ⟨n, hn⟩ := List.getElem?_of_mem hx
      obtain ⟨ns, hf, -⟩ := isPendingOn_iff.2 ⟨hd, line, link, hn⟩
      obtain ⟨before, after, entries, -⟩ := List.lookup_eq_some_iff.1 hf
      have waits : name ∈ (state cs).labels.unresolved := by
        rw [LabelTable.unresolved, entries]
        simp [Binding.address?]
      rw [Assembler.finish] at h
      split at h
      · next none_waits =>
        rw [none_waits] at waits
        cases waits
      · cases h

/-- A program that ends well has been emitted. -/
theorem finish_eq_emitted {placed : List Placed} (h : (state cs).finish = .ok placed) : placed = (state cs).emitted := by
  have all : (state cs).settled = (state cs).slots.toList.length := by
    rw [settled_eq, toList_slots, List.length_mapIdx, List.findIdx_eq_length]
    intro x hx
    rw [isKnown_of_finish h x hx]
    rfl
  rw [Assembler.finish] at h
  split at h
  · cases h
    rw [Assembler.emitted, all, List.take_length]
  · cases h

/-! ## Jumps that are resolved -/

/-- Whether a slot waits for nothing. -/
def IsDone (a : Assembler) (n : Nat) : Prop := ∃ s, a.slots[n]? = some s ∧ s.pending = false

theorem isDone_iff {n : Nat} : IsDone (state cs) n ↔ ∃ x, (accepted cs)[n]? = some x ∧ isKnown cs x = true := by
  simp only [IsDone, getElem?_slots, Option.map_eq_some_iff]
  constructor
  · rintro ⟨_, ⟨x, hx, rfl⟩, done⟩
    refine ⟨x, hx, ?_⟩
    rwa [pending_slotAt, Bool.not_eq_false'] at done
  · rintro ⟨x, hx, known⟩
    refine ⟨_, ⟨x, hx, rfl⟩, ?_⟩
    rw [pending_slotAt, known]
    rfl

theorem slotAt_mono {x : Nat × Cell} (h : isKnown cs x = true) (ds : List Call) (i : Nat) :
    slotAt (texts (cs ++ ds)) i x = slotAt (texts cs) i x := by
  obtain ⟨line, x⟩ := x
  cases x with
  | instr i => rfl
  | jump link name =>
    have known : (definition? name (texts cs)).isSome := h
    obtain ⟨d, hd⟩ := Option.isSome_iff_exists.1 known
    simp only [slotAt, hd, definition?_mono hd]

theorem getElem?_accepted_append {n : Nat} {x : Nat × Cell} (h : (accepted cs)[n]? = some x) (ds : List Call) :
    (accepted (cs ++ ds))[n]? = some x := by
  obtain ⟨more, hm⟩ := accepted_mono cs ds
  rw [← hm, List.getElem?_append_left (List.getElem?_eq_some_iff.1 h).1, h]

/-- A slot that waits for nothing stays as it is. -/
theorem slot_of_isDone {n : Nat} {s : Slot} (h : (state cs).slots[n]? = some s) (done : s.pending = false) (ds : List Call) :
    (state (cs ++ ds)).slots[n]? = some s := by
  rw [getElem?_slots] at h
  obtain ⟨x, hx, rfl⟩ := Option.map_eq_some_iff.1 h
  rw [pending_slotAt, Bool.not_eq_false'] at done
  rw [getElem?_slots, getElem?_accepted_append hx, Option.map_some, slotAt_mono done]

theorem IsDone.append {n : Nat} (h : IsDone (state cs) n) (ds : List Call) : IsDone (state (cs ++ ds)) n := by
  obtain ⟨s, hs, done⟩ := h
  exact ⟨s, slot_of_isDone hs done ds, done⟩

theorem IsDone.take {n j k : Nat} (h : IsDone (state (cs.take j)) n) (le : j ≤ k) : IsDone (state (cs.take k)) n := by
  obtain ⟨more, hm⟩ := List.take_prefix_take_left le (l := cs)
  rw [← hm]
  exact h.append more

/-- Whether a call makes a slot wait for nothing: the call after the first `k`. -/
def Resolves (cs : List Call) (k n : Nat) : Prop := ¬ IsDone (state (cs.take k)) n ∧ IsDone (state (cs.take (k + 1))) n

/-- A slot that is done was made so by one call. -/
theorem existsUnique_resolving {n : Nat} (h : IsDone (state cs) n) : ∃! k, k < cs.length ∧ Resolves cs k n := by
  have ends : ∃ k, IsDone (state (cs.take k)) n := ⟨cs.length, by rwa [List.take_length]⟩
  classical
  cases hk : Nat.find ends with
  | zero =>
    -- before the first call there is no slot
    have none_done := hk ▸ Nat.find_spec ends
    obtain ⟨s, hs, -⟩ := none_done
    cases hs
  | succ k =>
    have done : IsDone (state (cs.take (k + 1))) n := hk ▸ Nat.find_spec ends
    have waits : ¬ IsDone (state (cs.take k)) n := Nat.find_min ends (by omega)
    have among : k < cs.length := by
      have le : Nat.find ends ≤ cs.length := Nat.find_min' ends (by rwa [List.take_length])
      omega
    refine ⟨k, ⟨among, waits, done⟩, ?_⟩
    rintro j ⟨-, waits', done'⟩
    rcases Nat.lt_trichotomy j k with lt | rfl | lt
    · exact absurd (done'.take lt) waits
    · rfl
    · exact absurd (done.take lt) waits'

/-- A jump whose label is not defined in the end is resolved by no call. -/
theorem not_resolves {n line : Nat} {link : Bool} {name : String} (hx : (accepted cs)[n]? = some (line, .jump link name))
    (hd : definition? name (texts cs) = none) (k : Nat) : ¬ Resolves cs k n := by
  rintro ⟨-, done⟩
  -- what is done after one call stays done to the end, where the label would be known
  have later := done.append (cs.drop (k + 1))
  rw [List.take_append_drop] at later
  obtain ⟨x, hx', known⟩ := isDone_iff.1 later
  rw [hx] at hx'
  cases hx'
  have some_definition : (definition? name (texts cs)).isSome := known
  rw [hd] at some_definition
  cases some_definition

/-! ## The stream -/

/-- What an assembler gives away is final, and as much as can be.  Let some lines be offered, under any numbers, of which some
    may be refused, with fewer than 2^26 instructions together; let some of them come first.
    1. After those the emitted instructions are the longest row of accepted ones, from the first one on, in which each
       label is defined; the jumps carry the indices of their labels.
    2. Later lines only add to them, and so does the end.
    3. A slot that the label table keeps for a label stands in the queue, is pending, and is that of a jump to this label.
    4. A pending slot is kept for the label of its jump alone, once.
    5. A slot that is not pending stays as it is; a jump whose label is defined in the end is resolved by one call alone, and
       any other jump by none. -/
theorem streamed (cs ds : List Call) (bound : (accepted (cs ++ ds)).length < Instr.indexLimit) :
    (state cs).emitted = ((accepted cs).takeWhile (isKnown cs)).mapIdx (placedAt cs) ∧
    ((state cs).emitted <+: (state (cs ++ ds)).emitted ∧
      ∀ placed, (state (cs ++ ds)).finish = .ok placed → (state cs).emitted <+: placed) ∧
    (∀ n name, IsPendingOn (state cs) n name →
      (state cs).settled ≤ n ∧ (∃ s, (state cs).queue[n - (state cs).settled]? = some s ∧ s.pending = true) ∧
        ∃ line link, (accepted cs)[n]? = some (line, .jump link name)) ∧
    (∀ (n : Nat) (s : Slot), (state cs).slots[n]? = some s → s.pending = true →
      ∃ line link name, (accepted cs)[n]? = some (line, .jump link name) ∧ (∀ other, IsPendingOn (state cs) n other ↔ other = name) ∧
        ∀ ns, (state cs).labels.find? name = some (.waiting ns) → ns.count n = 1) ∧
    (∀ (n : Nat) (s : Slot), (state cs).slots[n]? = some s → s.pending = false → (state (cs ++ ds)).slots[n]? = some s) ∧
    (∀ n line link name, (accepted cs)[n]? = some (line, .jump link name) →
      ((definition? name (texts cs)).isSome → ∃! k, k < cs.length ∧ Resolves cs k n) ∧
      (definition? name (texts cs) = none → ∀ k < cs.length, ¬ Resolves cs k n)) := by
  have fewer : (accepted cs).length < Instr.indexLimit := Nat.lt_of_le_of_lt (accepted_mono cs ds).length_le bound
  refine ⟨emitted_eq fewer, ⟨emitted_mono bound, ?_⟩, ?_, ?_, ?_, ?_⟩
  · intro placed h
    rw [finish_eq_emitted h]
    exact emitted_mono bound
  · intro n name h
    obtain ⟨behind, inQueue⟩ := getElem?_queue h
    exact ⟨behind, inQueue, (isPendingOn_iff.1 h).2⟩
  · intro n s hs pending
    exact isPendingOn_of_pending hs pending
  · intro n s hs done
    exact slot_of_isDone hs done ds
  · intro n line link name hx
    constructor
    · intro known
      exact existsUnique_resolving (isDone_iff.2 ⟨_, hx, known⟩)
    · intro hd k _
      exact not_resolves hx hd k

/-- A jump to a label that a later line defines, with a line between them that is refused, and a second definition. -/
theorem streamed_forward_jump :
    (accepted ([⟨7, "j end".toList⟩, ⟨7, "j 1 2".toList⟩, ⟨3, "halt".toList⟩, ⟨9, "end:".toList⟩] ++ [⟨9, "end:".toList⟩])).length
        < Instr.indexLimit ∧
      (∃! k, k < 4 ∧ Resolves [⟨7, "j end".toList⟩, ⟨7, "j 1 2".toList⟩, ⟨3, "halt".toList⟩, ⟨9, "end:".toList⟩] k 0) ∧
      (state [⟨7, "j end".toList⟩, ⟨7, "j 1 2".toList⟩, ⟨3, "halt".toList⟩, ⟨9, "end:".toList⟩]).emitted
        = [⟨0, 7, .jump false 2⟩, ⟨4, 3, .halt⟩] :=
  have bound : (accepted ([⟨7, "j end".toList⟩, ⟨7, "j 1 2".toList⟩, ⟨3, "halt".toList⟩, ⟨9, "end:".toList⟩]
      ++ [⟨9, "end:".toList⟩])).length < Instr.indexLimit := by decide +kernel
  have jump : (accepted [⟨7, "j end".toList⟩, ⟨7, "j 1 2".toList⟩, ⟨3, "halt".toList⟩, ⟨9, "end:".toList⟩])[0]?
      = some (7, .jump false "end") := by decide +kernel
  ⟨bound, ((streamed _ _ bound).2.2.2.2.2 0 7 false "end" jump).1 (by decide +kernel), by decide +kernel⟩

end M32.Assembly.Stream
