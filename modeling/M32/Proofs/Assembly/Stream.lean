/-
  The assembler under any calls: its state.

  1. A call offers a line, under any number; a line that is refused changes nothing (`Assembler.call`).  `state` is what some
     calls lead to, `taken` are the calls whose lines were not refused.
  2. `accepted` are the cells of these lines.  The assembler stands as if it had been given them alone, one after another and
     numbered in a row (`exists_agrees`); so a cell of theirs stands in each slot (`toList_slots`), and the label table keeps the
     jumps that wait (`find?_eq_waiting_iff`).
  3. A call leaves these as they are and adds to them (`accepted_mono`, `definition?_mono`).
  4. `settled` counts the slots before the first pending one (`settled_eq`).
-/
import M32.Proofs.Assembly.Renumbered
import M32.Proofs.Assembly.TwoPass.Result

namespace M32.Assembly

open TwoPass (Agrees cellsOf numbered slotAt waiting definition? label? offence?)

/-! ## Calls -/

/-- A line that is offered to an assembler, with the number that it is given. -/
structure Call where
  line : Nat
  text : List Char
  deriving DecidableEq, Repr

namespace Assembler

/-- Offers a line.  A line that is refused changes nothing. -/
def call (a : Assembler) (c : Call) : Assembler :=
  match a.feed c.line c.text with
  | .ok b => b
  | .error _ => a

/-- Offers some lines. -/
def calls (a : Assembler) (cs : List Call) : Assembler := cs.foldl call a

/-- The calls whose lines are not refused. -/
def taken (a : Assembler) : List Call → List Call
  | [] => []
  | c :: cs => match a.feed c.line c.text with
    | .ok b => c :: b.taken cs
    | .error _ => a.taken cs

/-- The slots that are not final yet. -/
def queue (a : Assembler) : List Slot := a.slots.toList.drop a.settled

theorem taken_append (a : Assembler) (cs ds : List Call) : a.taken (cs ++ ds) = a.taken cs ++ (a.calls cs).taken ds := by
  induction cs generalizing a with
  | nil => rfl
  | cons c cs ih =>
    rw [List.cons_append, taken, taken, calls, List.foldl_cons, call]
    split
    · rw [ih, List.cons_append]; rfl
    · rw [ih]; rfl

end Assembler

namespace Stream

open Assembler (calls)

/-- The assembler after some calls. -/
def state (cs : List Call) : Assembler := calls {} cs

/-- The lines that were not refused. -/
def texts (cs : List Call) : List (List Char) := (Assembler.taken {} cs).map (·.text)

/-- The cells of some calls, with the numbers of their lines. -/
def cellsOfCalls (cs : List Call) : List (Nat × Cell) := cs.flatMap fun c => (cellsOf c.text).map fun cell => (c.line, cell)

/-- The cells that were accepted, with the numbers of their lines. -/
def accepted (cs : List Call) : List (Nat × Cell) := cellsOfCalls (Assembler.taken {} cs)

/-- Whether the label of a cell is defined, if it has one. -/
def isKnown (cs : List Call) (c : Nat × Cell) : Bool := c.2.label?.all fun name => (definition? name (texts cs)).isSome

variable {cs ds : List Call} {c : Call}

/-! ## One call more -/

theorem state_append (cs ds : List Call) : state (cs ++ ds) = calls (state cs) ds := List.foldl_append

theorem taken_concat_ok {b : Assembler} (h : (state cs).feed c.line c.text = .ok b) :
    state (cs ++ [c]) = b ∧ Assembler.taken {} (cs ++ [c]) = Assembler.taken {} cs ++ [c] := by
  constructor
  · rw [state_append, calls, List.foldl_cons, List.foldl_nil, Assembler.call, h]
  · rw [Assembler.taken_append, Assembler.taken, ← state, h]; rfl

theorem taken_concat_error {e : Error} (h : (state cs).feed c.line c.text = .error e) :
    state (cs ++ [c]) = state cs ∧ Assembler.taken {} (cs ++ [c]) = Assembler.taken {} cs := by
  constructor
  · rw [state_append, calls, List.foldl_cons, List.foldl_nil, Assembler.call, h]
  · rw [Assembler.taken_append, Assembler.taken, ← state, h, Assembler.taken, List.append_nil]

theorem texts_mono (cs ds : List Call) : ∃ more, texts (cs ++ ds) = texts cs ++ more :=
  ⟨_, by rw [texts, Assembler.taken_append, List.map_append]; rfl⟩

theorem accepted_mono (cs ds : List Call) : accepted cs <+: accepted (cs ++ ds) := by
  rw [accepted, accepted, Assembler.taken_append, cellsOfCalls, cellsOfCalls, List.flatMap_append]
  exact List.prefix_append _ _

theorem map_accepted (cs : List Call) : (accepted cs).map (·.2) = TwoPass.cells (texts cs) := by
  rw [accepted, texts, cellsOfCalls, TwoPass.cells, List.map_flatMap, List.flatMap_map]
  simp only [List.map_map, Function.comp_def, List.map_id']

/-- A defined label stays where it is. -/
theorem definition?_mono {name : String} {d : Nat × Nat} (h : definition? name (texts cs) = some d) (ds : List Call) :
    definition? name (texts (cs ++ ds)) = some d := by
  obtain ⟨more, hm⟩ := texts_mono cs ds
  rw [hm, TwoPass.definition?_append, h]
  rfl

theorem isKnown_mono {x : Nat × Cell} (h : isKnown cs x = true) (ds : List Call) : isKnown (cs ++ ds) x = true := by
  simp only [isKnown, Option.all_eq_true, Option.isSome_iff_exists] at h ⊢
  intro name hn
  obtain ⟨d, hd⟩ := h name hn
  exact ⟨d, definition?_mono hd ds⟩

/-! ## Lines in a row -/

/-- An assembler that takes a line knows what it says. -/
theorem agrees_of_feed {a b : Assembler} {ls : List (List Char)} {text : List Char} (h : Agrees a ls)
    (hb : a.feed (ls.length + 1) text = .ok b) : Agrees b (ls ++ [text]) := by
  have all : a.feedLines (ls.length + 1) [text] = .ok b := by
    rw [Assembler.feedLines, hb]; rfl
  exact (TwoPass.agrees_of_feedLines h all).1

/-- What some calls lead to is what their lines lead to, but for the numbers of the lines. -/
theorem exists_agrees (cs : List Call) (f : Nat → Nat)
    (hf : ∀ k c, (Assembler.taken {} cs)[k]? = some c → f (k + 1) = c.line) :
    ∃ b, Agrees b (texts cs) ∧ state cs = b.renumber f := by
  induction cs using List.reverseRecOn with
  | nil => exact ⟨{}, TwoPass.agrees_empty, (Assembler.renumber_empty f).symm⟩
  | append_singleton cs c ih =>
    cases hx : (state cs).feed c.line c.text with
    | error e =>
      -- the line is refused, so neither the state nor the lines taken change
      obtain ⟨same, taken⟩ := taken_concat_error hx
      rw [taken] at hf
      rw [same, texts, taken]
      exact ih hf
    | ok x =>
      obtain ⟨new, taken⟩ := taken_concat_ok hx
      rw [taken] at hf
      have line : f ((texts cs).length + 1) = c.line := by
        apply hf
        rw [texts, List.length_map, List.getElem?_concat_length]
      obtain ⟨b, agrees, hb⟩ := ih fun k d hd => hf k d (by
        rw [List.getElem?_append_left (List.getElem?_eq_some_iff.1 hd).1]
        exact hd)
      -- the row takes the line under its own number, and `f` turns it into the one of the call
      rw [hb, ← line] at hx
      rcases eq_of_toOption (b.feed_renumber f _ c.text) with ⟨b', h, h'⟩ | ⟨e, e', h, h'⟩
      · rw [h'] at hx
        cases hx
        refine ⟨b', ?_, new⟩
        rw [texts, taken, List.map_append]
        exact agrees_of_feed agrees h
      · rw [h'] at hx
        cases hx

/-- The numbers of the lines that were taken, by their positions. -/
def lineAt (cs : List Call) (n : Nat) : Nat := ((Assembler.taken {} cs)[n - 1]?.map (·.line)).getD 0

theorem lineAt_succ {k : Nat} (h : (Assembler.taken {} cs)[k]? = some c) : lineAt cs (k + 1) = c.line := by
  rw [lineAt, Nat.add_sub_cancel, h]; rfl

theorem cellsOfCalls_eq (f : Nat → Nat) (cs : List Call) (hf : ∀ k c, cs[k]? = some c → f (k + 1) = c.line) :
    cellsOfCalls cs = (numbered (cs.map (·.text))).map fun c => (f c.1, c.2) := by
  induction cs using List.reverseRecOn with
  | nil => rfl
  | append_singleton cs c ih =>
    have line : f (cs.length + 1) = c.line := hf _ _ List.getElem?_concat_length
    rw [List.map_append, List.map_singleton, TwoPass.numbered_append, List.map_append, ← ih, List.length_map, cellsOfCalls,
      List.flatMap_append, List.flatMap_singleton, List.map_map]
    · simp only [Function.comp_def, line]; rfl
    · intro k d hd
      apply hf
      rw [List.getElem?_append_left (List.getElem?_eq_some_iff.1 hd).1]
      exact hd

theorem renumber_slotAt (f : Nat → Nat) (ls : List (List Char)) (i : Nat) (c : Nat × Cell) :
    (slotAt ls i c).renumber f = slotAt ls i (f c.1, c.2) := by
  obtain ⟨line, c⟩ := c
  cases c with
  | instr i => rfl
  | jump link name =>
    simp only [slotAt]
    split <;> rfl

/-- The accepted cells stand in the slots. -/
theorem toList_slots (cs : List Call) : (state cs).slots.toList = (accepted cs).mapIdx (slotAt (texts cs)) := by
  obtain ⟨b, agrees, hb⟩ := exists_agrees cs (lineAt cs) fun k c => lineAt_succ
  rw [hb, accepted, cellsOfCalls_eq (lineAt cs) _ fun k c => lineAt_succ]
  show (b.slots.map (Slot.renumber (lineAt cs))).toList = _
  rw [Array.toList_map, agrees.slots]
  apply List.ext_getElem?
  intro j
  simp only [List.getElem?_map, List.getElem?_mapIdx, Option.map_map, Function.comp_def, renumber_slotAt]
  rfl

/-- A label waits if it is not defined and has jumps to it. -/
theorem find?_eq_waiting_iff {name : String} {ns : List Nat} :
    (state cs).labels.find? name = some (.waiting ns) ↔
      definition? name (texts cs) = none ∧ ns = waiting (texts cs) name ∧ ns ≠ [] := by
  obtain ⟨b, agrees, hb⟩ := exists_agrees cs (lineAt cs) fun k c => lineAt_succ
  rw [hb]
  show (b.labels.renumber _).find? name = _ ↔ _
  rw [LabelTable.find?_renumber, agrees.find, TwoPass.binding?]
  cases definition? name (texts cs) with
  | some d => simp [Binding.renumber]
  | none =>
    by_cases hw : waiting (texts cs) name = []
    · simp only [hw, if_true, Option.map_none, reduceCtorEq, false_iff, true_and]
      rintro ⟨rfl, h⟩
      exact h rfl
    · simp only [hw, if_false, Option.map_some, Binding.renumber, Option.some.injEq, Binding.waiting.injEq, true_and]
      constructor
      · rintro rfl
        exact ⟨rfl, hw⟩
      · rintro ⟨rfl, -⟩
        rfl

theorem getElem?_slots (cs : List Call) (j : Nat) :
    (state cs).slots[j]? = (accepted cs)[j]?.map (slotAt (texts cs) j) := by
  rw [← Array.getElem?_toList, toList_slots, List.getElem?_mapIdx]

/-- A slot is pending as long as the label of its cell is not known. -/
theorem pending_slotAt (cs : List Call) (i : Nat) (x : Nat × Cell) : (slotAt (texts cs) i x).pending = !isKnown cs x := by
  obtain ⟨line, x⟩ := x
  cases x with
  | instr i => rfl
  | jump link name =>
    simp only [slotAt, isKnown, Cell.label?, Option.all_some]
    cases definition? name (texts cs) <;> rfl

/-! ## The count of final slots -/

/-- To count on to the first pending slot finds it, if none is passed over. -/
theorem settledFrom_eq (slots : Array Slot) (n : Nat) (h : n ≤ slots.toList.findIdx (·.pending)) :
    Assembler.settledFrom slots n = slots.toList.findIdx (·.pending) := by
  fun_induction Assembler.settledFrom slots n with
  | case1 n lt pending =>
    refine (Nat.le_antisymm ?_ h).symm
    -- the first pending slot does not come after this one
    by_contra far
    have clear := List.not_of_lt_findIdx (Nat.lt_of_not_le far)
    rw [Array.getElem_toList, pending] at clear
    cases clear
  | case2 n lt clear ih =>
    apply ih
    rcases Nat.lt_or_eq_of_le h with far | here
    · exact far
    · have among : slots.toList.findIdx (·.pending) < slots.toList.length := by
        rw [← here]
        exact lt
      have found : slots.toList[slots.toList.findIdx (·.pending)].pending = true := List.findIdx_getElem
      simp only [← here, Array.getElem_toList] at found
      exact absurd found clear
  | case3 n ge =>
    have le : slots.toList.findIdx (·.pending) ≤ slots.toList.length := List.findIdx_le_length
    rw [Array.length_toList] at le
    omega

theorem settled_foldl_push (a : Assembler) (line : Nat) (is : List Instr) :
    (is.foldl (fun a i => a.push line false i) a).settled = a.settled := by
  induction is generalizing a with
  | nil => rfl
  | cons i is ih =>
    rw [List.foldl_cons, ih]
    rfl

/-- A statement leaves the count of final slots to the end of its line. -/
theorem settled_feedStatement {a b : Assembler} {line : Nat} {s : Statement} (h : a.feedStatement line s = .ok b) :
    b.settled = a.settled := by
  cases s with
  | label name =>
    simp only [Assembler.feedStatement, bind, Except.bind] at h
    split at h
    · cases h
    · split at h
      · cases h
      · cases h
        rfl
  | pseudo p =>
    simp only [Assembler.feedStatement] at h
    split at h
    · cases h
      exact settled_foldl_push a line _
    · cases h
  | instr i =>
    cases h
    rfl
  | jump link label =>
    simp only [Assembler.feedStatement] at h
    split at h
    · next address _ _ =>
      cases hj : Assembler.jumpIndex address with
      | error e => rw [hj] at h; cases h
      | ok index =>
        rw [hj] at h
        cases h
        rfl
    · cases h
      rfl

theorem settled_feed {a b : Assembler} {line : Nat} {text : List Char} (h : a.feed line text = .ok b) :
    b.settled = Assembler.settledFrom b.slots a.settled := by
  dsimp only [Assembler.feed] at h
  split at h
  · next fed hb =>
    cases h
    show Assembler.settledFrom fed.slots fed.settled = _
    congr 1
    cases hr : Statement.read text with
    | error e => rw [hr] at hb; cases hb
    | ok s? =>
      rw [hr] at hb
      cases s? with
      | none => cases hb; rfl
      | some s => exact settled_feedStatement hb
  · cases h

theorem slots_pending (cs : List Call) :
    (state cs).slots.toList.map (·.pending) = (accepted cs).map fun x => !isKnown cs x := by
  rw [toList_slots]
  apply List.ext_getElem?
  intro j
  simp only [List.getElem?_map, List.getElem?_mapIdx, Option.map_map, Function.comp_def, pending_slotAt]

/-- The final slots are those before the first cell with a label that is not known. -/
theorem findIdx_slots (cs : List Call) :
    (state cs).slots.toList.findIdx (·.pending) = (accepted cs).findIdx fun x => !isKnown cs x := by
  have both := congrArg (List.findIdx id) (slots_pending cs)
  rwa [List.findIdx_map, List.findIdx_map] at both

theorem findIdx_mono {α : Type} {p q : α → Bool} {xs ys : List α} (h : xs <+: ys) (hq : ∀ x, q x = true → p x = true) :
    xs.findIdx p ≤ ys.findIdx q := by
  obtain ⟨zs, rfl⟩ := h
  induction xs with
  | nil => exact Nat.zero_le _
  | cons x xs ih =>
    rw [List.cons_append, List.findIdx_cons, List.findIdx_cons]
    cases hx : p x with
    | true => exact Nat.zero_le _
    | false =>
      cases hy : q x with
      | true => rw [hq x hy] at hx; cases hx
      | false => exact Nat.succ_le_succ ih

/-- No slot that is final becomes pending again. -/
theorem findIdx_isKnown_le (cs ds : List Call) :
    ((accepted cs).findIdx fun x => !isKnown cs x) ≤ (accepted (cs ++ ds)).findIdx fun x => !isKnown (cs ++ ds) x := by
  refine findIdx_mono (accepted_mono cs ds) fun x hx => ?_
  rw [Bool.not_eq_true'] at hx ⊢
  cases known : isKnown cs x with
  | false => rfl
  | true => rw [isKnown_mono known] at hx; cases hx

/-- The number of final slots is right between two calls. -/
theorem settled_eq (cs : List Call) : (state cs).settled = (accepted cs).findIdx fun x => !isKnown cs x := by
  induction cs using List.reverseRecOn with
  | nil => rfl
  | append_singleton cs c ih =>
    cases hx : (state cs).feed c.line c.text with
    | error e =>
      obtain ⟨same, taken⟩ := taken_concat_error hx
      rw [same, ih, accepted, accepted, taken]
      simp only [isKnown, texts, taken]
    | ok x =>
      have new := (taken_concat_ok hx).1
      have passed : (state cs).settled ≤ x.slots.toList.findIdx (·.pending) := by
        rw [ih, ← new, findIdx_slots]
        exact findIdx_isKnown_le cs [c]
      rw [new, settled_feed hx, settledFrom_eq _ _ passed, ← new, findIdx_slots]

end Stream

end M32.Assembly
