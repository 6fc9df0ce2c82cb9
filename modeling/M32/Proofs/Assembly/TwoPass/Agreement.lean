/-
  The assembler against a plain one of two passes: what an assembler knows after some lines.

  `Agrees` ties an assembler to the lines that it has taken: the slots hold the cells in order, jumps to labels
  without a definition are pending, and the label table keeps the slots that wait for each label.
  1. `agrees_instrs` is a line without labels, `agrees_jump` a jump to a label and `agrees_label` a definition, which aims
     the jumps that wait for it.
  2. Labels stay in the order of their first occurrence, so the labels that still wait are the `undefined` ones
     (`Agrees.unresolved`), and at the end the slots are the program of the two passes (`finish_eq`).
-/
import M32.Proofs.Assembly.LabelTable
import M32.Proofs.Assembly.TwoPass

namespace M32.Assembly.TwoPass

variable {ls : List (List Char)} {text : List Char} {name : String}

/-! ## Tables of labels -/

/-- The positions of the jumps to a label. -/
def waiting (ls : List (List Char)) (name : String) : List Nat :=
  ((cells ls).zipIdx.filter fun c => c.1.label? = some name).map (·.2)

/-- What the label table knows of a name after some lines. -/
def binding? (ls : List (List Char)) (name : String) : Option Binding :=
  match definition? name ls with
  | some (index, line) => some (.bound (UInt32.ofNat (4 * index)) line)
  | none => if waiting ls name = [] then none else some (.waiting (waiting ls name))

/-- The label that a line defines or jumps to. -/
def mention (text : List Char) : List String :=
  match statement? text with
  | some (.label name) => [name]
  | some (.jump _ name) => [name]
  | _ => []

theorem mem_waiting_iff {j : Nat} : j ∈ waiting ls name ↔ ∃ link, (cells ls)[j]? = some (.jump link name) := by
  simp only [waiting, List.mem_map, List.mem_filter, decide_eq_true_eq, Prod.exists, exists_eq_right,
    List.mem_zipIdx_iff_getElem?]
  constructor
  · rintro ⟨c, hc, hn⟩
    cases c with
    | instr i => simp [Cell.label?] at hn
    | jump link label =>
      cases hn
      exact ⟨link, hc⟩
  · rintro ⟨link, hc⟩
    exact ⟨_, hc, rfl⟩

theorem waiting_append (ls : List (List Char)) (text : List Char) (name : String) :
    waiting (ls ++ [text]) name
      = waiting ls name ++ (((cellsOf text).zipIdx (size ls)).filter fun c => c.1.label? = some name).map (·.2) := by
  rw [waiting, cells_append, cells_singleton, List.zipIdx_append, List.filter_append, List.map_append, Nat.zero_add]
  rfl

/-! ## What an assembler knows -/

/-- The word index of the instruction that follows `n` others. -/
def wordIndex (n : Nat) : Word := UInt32.ofNat (4 * n) >>> 2

/-- The slot of a numbered cell at a position, as far as some lines define its label. -/
def slotAt (ls : List (List Char)) (i : Nat) (c : Nat × Cell) : Slot :=
  match c.2 with
  | .instr x => ⟨⟨UInt32.ofNat (4 * i), c.1, x⟩, false⟩
  | .jump link name => match definition? name ls with
    | some (index, _) => ⟨⟨UInt32.ofNat (4 * i), c.1, .jump link (wordIndex index)⟩, false⟩
    | none => ⟨⟨UInt32.ofNat (4 * i), c.1, .jump link 0⟩, true⟩

/-- An assembler knows what the lines that it has taken say. -/
structure Agrees (a : Assembler) (ls : List (List Char)) : Prop where
  pc : a.pc = UInt32.ofNat (4 * size ls)
  slots : a.slots.toList = (numbered ls).mapIdx (slotAt ls)
  find : ∀ name, a.labels.find? name = binding? ls name
  names : a.labels.entries.map (·.1) = (ls.flatMap mention).eraseDups

variable {a : Assembler}

theorem agrees_empty : Agrees {} [] where
  pc := rfl
  slots := rfl
  find _ := rfl
  names := rfl

theorem Agrees.slots_size (h : Agrees a ls) : a.slots.size = size ls := by
  rw [← Array.length_toList, h.slots, List.length_mapIdx, length_numbered]

theorem Agrees.settle (h : Agrees a ls) : Agrees a.settle ls := ⟨h.pc, h.slots, h.find, h.names⟩

theorem ofNat_four_mul_succ (n : Nat) : UInt32.ofNat (4 * n) + 4 = UInt32.ofNat (4 * (n + 1)) := by
  rw [Nat.mul_add, UInt32.ofNat_add]; rfl

/-- An address below the end of the address space is that of its index. -/
theorem toNat_wordIndex {n : Nat} (h : 4 * n < 0x100000000) : (wordIndex n).toNat = n := by
  rw [wordIndex, UInt32.toNat_shiftRight, UInt32.toNat_ofNat_of_lt' h]
  show (4 * n) >>> 2 = n
  rw [Nat.shiftRight_eq_div_pow]; omega

theorem four_mul_lt {n : Nat} (h : n < Instr.indexLimit) : 4 * n < 0x100000000 := by
  have hn : n < 0x4000000 := h
  omega

theorem wordIndex_eq {n : Nat} (h : n < Instr.indexLimit) : wordIndex n = UInt32.ofNat n := by
  have hn : n < 0x4000000 := h
  apply UInt32.toNat_inj.1
  rw [toNat_wordIndex (four_mul_lt h), UInt32.toNat_ofNat_of_lt' (by show n < 0x100000000; omega)]

/-! ### Lines without labels -/

theorem definition?_append_of_label?_eq_none (hl : label? text = none) (name : String) :
    definition? name (ls ++ [text]) = definition? name ls := by
  rw [definition?_append]
  simp [definition?, hl]

theorem slotAt_append (hl : label? text = none) : slotAt (ls ++ [text]) = slotAt ls := by
  funext i c
  simp only [slotAt, definition?_append_of_label?_eq_none hl]

/-- Pushing instructions of a line adds their slots. -/
theorem foldl_push (line : Nat) (is : List Instr) :
    let b := is.foldl (fun a i => a.push line false i) a
    b.pc = a.pc + UInt32.ofNat (4 * is.length) ∧ b.labels = a.labels ∧
      b.slots.toList = a.slots.toList ++ is.mapIdx fun k i => ⟨⟨a.pc + UInt32.ofNat (4 * k), line, i⟩, false⟩ := by
  induction is generalizing a with
  | nil => simp
  | cons i is ih =>
    obtain ⟨hpc, hlabels, hslots⟩ := ih (a := a.push line false i)
    have step : ∀ k, a.pc + 4 + UInt32.ofNat (4 * k) = a.pc + UInt32.ofNat (4 * (k + 1)) := by
      intro k
      rw [← ofNat_four_mul_succ, UInt32.add_assoc, UInt32.add_comm 4]
    refine ⟨?_, hlabels, ?_⟩
    · show _ = _
      rw [List.foldl_cons, hpc, List.length_cons, ← step]; rfl
    · have first : a.pc + UInt32.ofNat (4 * 0) = a.pc := UInt32.add_zero _
      rw [List.foldl_cons, hslots, List.mapIdx_cons, first]
      simp only [Assembler.push, step, Array.toList_push, List.append_assoc, List.singleton_append]

theorem agrees_instrs (h : Agrees a ls) {is : List Instr} (hc : cellsOf text = is.map .instr) (hl : label? text = none)
    (hm : mention text = []) :
    Agrees (is.foldl (fun a i => a.push (ls.length + 1) false i) a) (ls ++ [text]) := by
  obtain ⟨hpc, hlabels, hslots⟩ := foldl_push (a := a) (ls.length + 1) is
  have hsize : size (ls ++ [text]) = size ls + is.length := by
    rw [size_append]; simp [size, cells, hc]
  constructor
  · rw [hpc, h.pc, hsize, Nat.mul_add, UInt32.ofNat_add]
  · rw [hslots, h.slots, slotAt_append hl, numbered_append, List.mapIdx_append, length_numbered]
    congr 1
    apply List.ext_getElem
    · simp [hc]
    · intro k h₁ h₂
      simp [hc, slotAt, h.pc, Nat.mul_add, UInt32.ofNat_add, UInt32.add_comm]
  · intro name
    rw [hlabels, h.find]
    have quiet : (((cellsOf text).zipIdx (size ls)).filter fun c => c.1.label? = some name) = [] := by
      rw [List.filter_eq_nil_iff]
      rintro ⟨c, k⟩ hk
      have := (List.mem_zipIdx hk).2.2
      simp [hc] at this
      simp [this, Cell.label?]
    simp only [binding?, definition?_append_of_label?_eq_none hl, waiting_append, quiet, List.map_nil, List.append_nil]
  · rw [hlabels, h.names, List.flatMap_append]
    simp [hm]

/-! ### Lines with labels -/

/-- Setting a name adds it to the names in the order of their first occurrence. -/
theorem Agrees.names_set (h : Agrees a ls) (name : String) (b : Binding) (hm : mention text = [name]) :
    (a.labels.set name b).entries.map (·.1) = ((ls ++ [text]).flatMap mention).eraseDups := by
  rw [List.flatMap_append, List.flatMap_singleton, hm]
  exact LabelTable.names_set h.names name b

theorem statement?_of_label? (h : label? text = some name) : statement? text = some (.label name) := by
  unfold label? at h
  split at h
  · next hs => cases h; exact hs
  · cases h

theorem mention_of_label? (h : label? text = some name) : mention text = [name] := by
  rw [mention, statement?_of_label? h]

theorem mem_mentions_of_mem_labels (h : name ∈ labels ls) : name ∈ ls.flatMap mention := by
  obtain ⟨text, hmem, hl⟩ := List.mem_filterMap.1 h
  exact List.mem_flatMap.2 ⟨text, hmem, by rw [mention_of_label? hl]; exact List.mem_singleton.2 rfl⟩

theorem jumpIndex_ofNat (n : Nat) : (Assembler.jumpIndex (UInt32.ofNat (4 * n)) = .ok (wordIndex n)) ∨
    (Instr.indexLimit ≤ n ∧ ∃ e, Assembler.jumpIndex (UInt32.ofNat (4 * n)) = .error e) := by
  by_cases h : (wordIndex n).toNat < Instr.indexLimit
  · exact .inl (if_pos h)
  · refine .inr ⟨?_, _, if_neg h⟩
    rcases Nat.lt_or_ge n Instr.indexLimit with hn | hn
    · rw [toNat_wordIndex (four_mul_lt hn)] at h; exact absurd hn h
    · exact hn

/-- A jump to a label that is not defined yet waits in the next slot. -/
theorem Agrees.reference (h : Agrees a ls) (hd : definition? name ls = none) :
    a.labels.reference name a.slots.size
      = (none, a.labels.set name (.waiting (waiting ls name ++ [size ls]))) := by
  have hf := h.find name
  rw [binding?, hd] at hf
  rw [LabelTable.reference, h.slots_size, hf]
  by_cases hw : waiting ls name = []
  · simp [hw]
  · simp [hw]

section

variable {link : Bool} (hs : statement? text = some (.jump link name))

include hs

theorem cellsOf_of_jump : cellsOf text = [.jump link name] := by rw [cellsOf, hs]; rfl

theorem label?_of_jump : label? text = none := by rw [label?, hs]

theorem size_concat_jump : size (ls ++ [text]) = size ls + 1 := by
  rw [size_append]; simp [size, cells, cellsOf_of_jump hs]

/-- The slot of a jump stands after the old ones, which stay as they are. -/
theorem Agrees.push_jump (h : Agrees a ls) {s : Slot} (hslot : s = slotAt ls (size ls) (ls.length + 1, .jump link name)) :
    (a.slots.push s).toList = (numbered (ls ++ [text])).mapIdx (slotAt (ls ++ [text])) := by
  rw [slotAt_append (label?_of_jump hs), numbered_append, List.mapIdx_append, length_numbered, Array.toList_push, h.slots,
    cellsOf_of_jump hs, hslot]
  simp

/-- A jump makes its cell wait for its label, and for no other. -/
theorem waiting_concat_jump (other : String) : waiting (ls ++ [text]) other
    = if other = name then waiting ls other ++ [size ls] else waiting ls other := by
  rw [waiting_append, cellsOf_of_jump hs]
  by_cases e : other = name
  · simp [Cell.label?, e]
  · have e' : ¬ name = other := fun h => e h.symm
    simp [Cell.label?, e, e']

end

theorem agrees_jump (h : Agrees a ls) {link : Bool} (hs : statement? text = some (.jump link name)) :
    (∃ b, a.feedStatement (ls.length + 1) (.jump link name) = .ok b ∧ Agrees b (ls ++ [text])) ∨
      (Instr.indexLimit ≤ size ls ∧ ∃ e, a.feedStatement (ls.length + 1) (.jump link name) = .error e) := by
  have hl := label?_of_jump hs
  have hm : mention text = [name] := by rw [mention, hs]
  have hpc : a.pc + 4 = UInt32.ofNat (4 * size (ls ++ [text])) := by rw [h.pc, size_concat_jump hs, ofNat_four_mul_succ]
  cases hd : definition? name ls with
  | some d =>
    have hr : a.labels.reference name a.slots.size = (some (UInt32.ofNat (4 * d.1)), a.labels) := by
      have hf := h.find name
      rw [binding?, hd] at hf
      rw [LabelTable.reference, hf]
    have known : name ∈ ls.flatMap mention :=
      mem_mentions_of_mem_labels (definition?_isSome_iff.1 (by rw [hd]; rfl))
    rcases jumpIndex_ofNat d.1 with hj | ⟨hlim, e, he⟩
    · refine .inl ⟨a.push (ls.length + 1) false (.jump link (wordIndex d.1)), ?_, hpc, h.push_jump hs ?_, ?_, ?_⟩
      · simp only [Assembler.feedStatement, hr, hj, Except.map]
      · simp only [slotAt, hd, h.pc]
      · intro other
        show a.labels.find? other = _
        rw [h.find, binding?, binding?, definition?_append_of_label?_eq_none hl, waiting_concat_jump hs]
        by_cases e : other = name
        · rw [e, hd]
        · simp only [if_neg e]
      · show a.labels.entries.map (·.1) = _
        rw [h.names, List.flatMap_append, List.flatMap_singleton, hm, eraseDups_concat, if_pos known]
    · refine .inr ⟨Nat.le_trans hlim (definition?_le hd), e, ?_⟩
      simp only [Assembler.feedStatement, hr, he, Except.map]
  | none =>
    have hr := h.reference hd
    let table := a.labels.set name (.waiting (waiting ls name ++ [size ls]))
    refine .inl ⟨{ a with labels := table }.push (ls.length + 1) true (.jump link 0), ?_, hpc, h.push_jump hs ?_, ?_, ?_⟩
    · simp only [Assembler.feedStatement, hr, table]
    · simp only [slotAt, hd, h.pc]
    · intro other
      show table.find? other = _
      rw [LabelTable.find?_set, binding?, definition?_append_of_label?_eq_none hl, waiting_concat_jump hs]
      by_cases e : other = name
      · simp [e, hd]
      · rw [if_neg e, if_neg e, h.find, binding?]
    · exact h.names_set name _ hm

theorem aim_aim (s : Slot) (index : Word) : (s.aim index).aim index = s.aim index := by
  obtain ⟨⟨address, line, i⟩, pending⟩ := s
  cases i <;> rfl

/-- Aiming some slots changes these only. -/
theorem getElem?_aimAll (slots : Array Slot) (index : Word) (ws : List Nat) (j : Nat) :
    (Assembler.aimAll slots index ws)[j]? = if j ∈ ws then slots[j]?.map (·.aim index) else slots[j]? := by
  induction ws generalizing slots with
  | nil => simp [Assembler.aimAll]
  | cons w ws ih =>
    have step : Assembler.aimAll slots index (w :: ws) = Assembler.aimAll (slots.modify w (·.aim index)) index ws := rfl
    rw [step, ih, Array.getElem?_modify]
    by_cases hw : j = w
    · subst hw
      by_cases hm : j ∈ ws
      · simp [hm, Function.comp_def, aim_aim]
      · simp [hm]
    · have hw' : ¬ w = j := fun h => hw h.symm
      simp [hw, hw']

/-- A label that is not defined yet hands out the slots that wait for it. -/
theorem Agrees.define (h : Agrees a ls) (hd : definition? name ls = none) (address : Word) (line : Nat) :
    a.labels.define name address line = .ok (waiting ls name, a.labels.set name (.bound address line)) := by
  have hf := h.find name
  rw [binding?, hd] at hf
  rw [LabelTable.define, hf]
  by_cases hw : waiting ls name = [] <;> simp [hw]

section

variable (hs : statement? text = some (.label name)) (hd : definition? name ls = none)

include hs

theorem cellsOf_of_label : cellsOf text = [] := by rw [cellsOf, hs]; rfl

theorem label?_of_label : label? text = some name := by rw [label?, hs]

theorem waiting_concat_label (other : String) : waiting (ls ++ [text]) other = waiting ls other := by
  rw [waiting_append, cellsOf_of_label hs]; simp

include hd

/-- A new label stands at the end of the lines so far, and the others where they stood. -/
theorem definition?_concat_label (other : String) : definition? other (ls ++ [text])
    = if other = name then some (size ls, ls.length + 1) else definition? other ls := by
  rw [definition?_append, definition?, label?_of_label hs]
  by_cases e : other = name
  · subst e; simp [hd]
  · have e' : ¬ name = other := fun h => e h.symm
    simp [e, e', definition?]

/-- A new label aims the slots that wait for it. -/
theorem Agrees.aimAll_label (h : Agrees a ls) : (Assembler.aimAll a.slots (wordIndex (size ls)) (waiting ls name)).toList =
    (numbered (ls ++ [text])).mapIdx (slotAt (ls ++ [text])) := by
  apply List.ext_getElem?
  intro j
  have old : a.slots[j]? = (numbered ls)[j]?.map (slotAt ls j) := by
    rw [← Array.getElem?_toList, h.slots, List.getElem?_mapIdx]
  have cell : (cells ls)[j]? = (numbered ls)[j]?.map (·.2) := by rw [← map_numbered, List.getElem?_map]
  rw [Array.getElem?_toList, getElem?_aimAll, old, numbered_append, cellsOf_of_label hs, List.map_nil, List.append_nil,
    List.getElem?_mapIdx]
  simp only [mem_waiting_iff, cell]
  cases (numbered ls)[j]? with
  | none => simp
  | some c =>
    obtain ⟨line, c⟩ := c
    cases c with
    | instr i => simp [slotAt]
    | jump link label =>
      by_cases e : label = name
      · subst e; simp [slotAt, definition?_concat_label hs hd, hd, Slot.aim, Instr.aim]
      · simp [slotAt, definition?_concat_label hs hd, e]

end

theorem agrees_label (h : Agrees a ls) (hs : statement? text = some (.label name)) (hd : definition? name ls = none) :
    (∃ b, a.feedStatement (ls.length + 1) (.label name) = .ok b ∧ Agrees b (ls ++ [text])) ∨
      (Instr.indexLimit ≤ size ls ∧ ∃ e, a.feedStatement (ls.length + 1) (.label name) = .error e) := by
  have hdefine := h.define hd a.pc (ls.length + 1)
  rcases jumpIndex_ofNat (size ls) with hj | ⟨hlim, e, he⟩
  · let table := a.labels.set name (.bound a.pc (ls.length + 1))
    let slots := Assembler.aimAll a.slots (wordIndex (size ls)) (waiting ls name)
    refine .inl ⟨{ a with labels := table, slots }, ?_, ?_, h.aimAll_label hs hd, ?_, ?_⟩
    · rw [← h.pc] at hj
      simp only [Assembler.feedStatement, hdefine, hj]
      rfl
    · show a.pc = _
      rw [h.pc, size_append]; simp [size, cells, cellsOf_of_label hs]
    · intro other
      show table.find? other = _
      rw [LabelTable.find?_set, binding?, definition?_concat_label hs hd, waiting_concat_label hs]
      by_cases e : other = name
      · simp [e, h.pc]
      · rw [if_neg e, if_neg e, h.find, binding?]
    · exact h.names_set name _ (mention_of_label? (label?_of_label hs))
  · refine .inr ⟨hlim, e, ?_⟩
    rw [← h.pc] at he
    simp only [Assembler.feedStatement, hdefine, he]
    rfl

/-! ### The end of a text -/

/-- Names that no line defines are mentioned by jumps only. -/
theorem filter_mentions (ls : List (List Char)) :
    (ls.flatMap mention).filter (fun name => (definition? name ls).isNone)
      = (targets ls).filter fun name => (definition? name ls).isNone := by
  have line : ∀ text ∈ ls, (mention text).filter (fun name => (definition? name ls).isNone)
      = ((cellsOf text).filterMap Cell.label?).filter fun name => (definition? name ls).isNone := by
    intro text hm
    rw [mention, cellsOf]
    split
    · next name hs =>
      have defined : (definition? name ls).isSome := definition?_isSome_iff.2
        (List.mem_filterMap.2 ⟨text, hm, by rw [label?, hs]⟩)
      rw [hs, List.filter_cons_of_neg (by rw [Bool.not_eq_true, Option.isNone_eq_false_iff]; exact defined)]
      rfl
    · next link name hs => rw [hs]; rfl
    · next hl hj =>
      cases hs : statement? text with
      | none => rfl
      | some s => cases s with
        | label name => exact absurd hs (hl name)
        | jump link name => exact absurd hs (hj link name)
        | instr i => rfl
        | pseudo p =>
          have none_of : (p.instrs.map Cell.instr).filterMap Cell.label? = [] := by
            rw [List.filterMap_map, List.filterMap_eq_nil_iff]
            intros; rfl
          simp only [Statement.cells, none_of, List.filter_nil]
  rw [targets, cells, List.filterMap_flatMap, List.filter_flatMap, List.filter_flatMap]
  exact List.flatMap_congr line

theorem Agrees.get?_isNone (h : Agrees a ls) (name : String) : (a.labels.get? name).isNone = (definition? name ls).isNone := by
  rw [LabelTable.get?, h.find, binding?]
  cases definition? name ls with
  | some d => rfl
  | none => dsimp only; split <;> rfl

theorem Agrees.unresolved (h : Agrees a ls) : a.labels.unresolved = undefined ls := by
  have names : a.labels.names = (ls.flatMap mention).eraseDups := h.names
  have nodup : a.labels.names.Nodup := by rw [names]; exact nodup_eraseDups _
  rw [LabelTable.unresolved_eq nodup, List.filter_congr fun name _ => h.get?_isNone name, names, undefined, ← filter_eraseDups,
    filter_mentions, filter_eraseDups]

/-- At the end there is the program of the two passes, or the labels that no line defines. -/
theorem finish_eq (h : Agrees a ls) :
    a.finish = finished (fun name => wordIndex (indexOf ls name)) ls := by
  rw [Assembler.finish, h.unresolved, finished]
  cases hu : undefined ls with
  | cons name names => rfl
  | nil =>
    have defined : ∀ name ∈ targets ls, (definition? name ls).isSome := by
      intro name hm
      by_contra hd
      have : name ∈ undefined ls := by
        rw [undefined, List.mem_filter, List.mem_eraseDups]
        exact ⟨hm, by simpa using hd⟩
      rw [hu] at this
      cases this
    simp only [h.slots, programWith]
    congr 1
    apply List.ext_getElem
    · simp
    · intro i h₁ h₂
      have hi : i < (numbered ls).length := by simpa using h₂
      simp only [List.getElem_map, List.getElem_mapIdx]
      have hc : (numbered ls)[i] ∈ numbered ls := List.getElem_mem _
      generalize (numbered ls)[i] = c at hc
      obtain ⟨line, c⟩ := c
      cases c with
      | instr x => rfl
      | jump link name =>
        have hm : name ∈ targets ls := by
          rw [targets, ← map_numbered, List.mem_filterMap]
          exact ⟨_, List.mem_map_of_mem hc, rfl⟩
        obtain ⟨d, hd⟩ := Option.isSome_iff_exists.1 (defined name hm)
        simp only [slotAt, Cell.aimed, indexOf, hd, Option.map_some, Option.getD_some]

end M32.Assembly.TwoPass
