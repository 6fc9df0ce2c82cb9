/-
  The table of labels over any row of calls.

  1. Names stay in the order of their first occurrence (`map_fst_setIn`), so the labels that still wait are the names without an
     address in that order (`LabelTable.unresolved_eq`).
  2. A `LabelCall` defines a label or looks it up for a jump.  It is made in place, so what a refused call has done stays done, and
     `InPlace.define_on` says that it has done nothing.  `LabelTable.run` makes calls one after another and keeps what they give.
     The functions in `LabelCall` say what a row of calls says of a name, and what a call gives after it (`LabelCall.answer`).
  3. `Records` is what a table knows after some calls.  One call keeps it and is answered by it (`Records.call`), and so does a
     row of calls (`Records.run`).
  4. `waiting_run` is a ledger: every slot that was made to wait is handed out once or still waits.
  5. `slots_handed_out` puts these together.
-/
import M32.Assembly.InPlace
import Mathlib.Data.List.Basic
import Mathlib.Data.List.Induction
import Mathlib.Data.List.Nodup

namespace M32.Assembly

/-! ## Names in the order of their first occurrence -/

theorem eraseDups_concat (xs : List String) (x : String) :
    (xs ++ [x]).eraseDups = if x ∈ xs then xs.eraseDups else xs.eraseDups ++ [x] := by
  rw [List.eraseDups_append]
  by_cases h : x ∈ xs <;> simp [List.removeAll, h, List.eraseDups_cons]

theorem nodup_eraseDups (xs : List String) : xs.eraseDups.Nodup := by
  induction xs using List.reverseRecOn with
  | nil => exact List.nodup_nil
  | append_singleton xs x ih =>
    rw [eraseDups_concat]
    split
    · exact ih
    · next h =>
      refine List.nodup_append.2 ⟨ih, List.nodup_singleton x, ?_⟩
      rintro y hy z hz rfl
      rw [List.mem_singleton] at hz
      exact h (hz ▸ List.mem_eraseDups.1 hy)

theorem filter_eraseDups (p : String → Bool) (xs : List String) : (xs.filter p).eraseDups = xs.eraseDups.filter p := by
  induction xs using List.reverseRecOn with
  | nil => rfl
  | append_singleton xs x ih =>
    rw [List.filter_append, eraseDups_concat]
    by_cases hp : p x = true
    · rw [List.filter_cons_of_pos hp, List.filter_nil, eraseDups_concat, ih]
      by_cases hm : x ∈ xs <;> simp [hm, hp]
    · rw [List.filter_cons_of_neg hp, List.filter_nil, List.append_nil, ih]
      by_cases hm : x ∈ xs <;> simp [hm, hp]

theorem map_fst_setIn (name : String) (b : Binding) (es : List (String × Binding)) :
    (LabelTable.setIn name b es).map (·.1)
      = if name ∈ es.map (·.1) then es.map (·.1) else es.map (·.1) ++ [name] := by
  induction es with
  | nil => rfl
  | cons e es ih =>
    rw [LabelTable.setIn]
    by_cases here : e.1 = name
    · simp [here]
    · rw [if_neg here, List.map_cons, ih]
      have other : ¬ name = e.1 := fun h => here h.symm
      by_cases later : name ∈ es.map (·.1) <;> simp [later, other]

theorem lookup_of_mem {es : List (String × Binding)} {e : String × Binding} (hn : (es.map (·.1)).Nodup) (he : e ∈ es) :
    es.lookup e.1 = some e.2 := by
  induction es with
  | nil => cases he
  | cons e' es ih =>
    rw [List.map_cons, List.nodup_cons] at hn
    rw [List.lookup_cons]
    rcases List.mem_cons.1 he with rfl | hm
    · simp
    · have other : e.1 ≠ e'.1 := fun h => hn.1 (h ▸ List.mem_map_of_mem hm)
      rw [beq_eq_false_iff_ne.2 other]
      exact ih hn.2 hm

namespace LabelTable

/-- The names of a table, in the order of their first occurrence. -/
def names (t : LabelTable) : List String := t.entries.map (·.1)

theorem names_set {t : LabelTable} {xs : List String} (h : t.names = xs.eraseDups) (name : String) (b : Binding) :
    (t.set name b).names = (xs ++ [name]).eraseDups := by
  show (setIn name b t.entries).map (·.1) = _
  rw [map_fst_setIn, eraseDups_concat]
  show (if name ∈ t.names then t.names else t.names ++ [name]) = _
  simp only [h, List.mem_eraseDups]

theorem unresolved_eq {t : LabelTable} (h : t.names.Nodup) : t.unresolved = t.names.filter fun name => (t.get? name).isNone := by
  have entry : ∀ e ∈ t.entries, e.2.address?.isNone = (t.get? e.1).isNone := by
    intro e he
    rw [get?, find?, lookup_of_mem h he]
    rfl
  rw [unresolved, List.filter_congr entry, names, List.filter_map]
  rfl

end LabelTable

theorem LabelTable.setIn_setIn (name : String) (b c : Binding) (es : List (String × Binding)) :
    setIn name c (setIn name b es) = setIn name c es := by
  induction es with
  | nil => exact if_pos rfl
  | cons e es ih =>
    rw [setIn, setIn]
    by_cases here : e.1 = name
    · rw [if_pos here, if_pos here]
      exact if_pos rfl
    · rw [if_neg here, if_neg here, setIn, if_neg here, ih]

/-- Of two entries for a name the later one counts. -/
theorem LabelTable.set_set (t : LabelTable) (name : String) (b c : Binding) : (t.set name b).set name c = t.set name c :=
  congrArg LabelTable.mk (setIn_setIn name b c t.entries)

namespace InPlace

/-! ## Steps in place -/

section

variable {ε σ α β : Type} (s : σ)

theorem on_bind (x : InPlace ε σ α) (f : α → InPlace ε σ β) :
    (x >>= f).on s = match x.on s with
      | (.ok v, t) => (f v).on t
      | (.error e, t) => (.error e, t) := by
  show (ExceptT.bindCont f (x.on s).1).run (x.on s).2 = _
  rcases x.on s with ⟨_ | v, t⟩ <;> rfl

theorem on_state (x : StateM σ α) : (liftM x : InPlace ε σ α).on s = (.ok (x.run s).1, (x.run s).2) := rfl

theorem on_except (x : Except ε α) : (liftM x : InPlace ε σ α).on s = (x, s) := rfl

theorem on_adapt {δ : Type} (x : InPlace ε σ α) (f : ε → δ) :
    on (ExceptT.adapt f x) s = ((x.on s).1.mapError f, (x.on s).2) := rfl

theorem on_get : (get : InPlace ε σ σ).on s = (.ok s, s) := rfl

/-- A change for each of some values makes all of them, one after another. -/
theorem on_forM (xs : List α) (f : α → σ → σ) :
    (xs.forM fun x => (modify (f x) : InPlace ε σ Unit)).on s = (.ok (), xs.foldl (fun s x => f x s) s) := by
  induction xs generalizing s with
  | nil => rfl
  | cons x xs ih => exact ih (f x s)

end

/-! ### The table of labels -/

theorem entry_run (t : LabelTable) (name : String) : (entry name).run t = match t.find? name with
    | some b => (b, t)
    | none => (.waiting [], t.set name (.waiting [])) := by
  show (match t.find? name with | some b => _ | none => _ : StateM LabelTable Binding).run t = _
  cases t.find? name <;> rfl

/-- A label that is defined already is refused before the table changes. -/
theorem define_on (t : LabelTable) (name : String) (address : Word) (line : Nat) :
    (define name address line).on t = match t.define name address line with
      | .ok (slots, u) => (.ok slots, u)
      | .error fault => (.error fault, t) := by
  rw [define, on_bind, on_state, entry_run, LabelTable.define]
  cases t.find? name with
  | none =>
    show (Except.ok [], (t.set name (.waiting [])).set name (.bound address line)) = _
    rw [LabelTable.set_set]
  | some b => cases b <;> rfl

theorem reference_on (t : LabelTable) (name : String) (slot : Nat) :
    (reference name slot).on t = (.ok (t.reference name slot).1, (t.reference name slot).2) := by
  rw [reference, on_bind, on_state, entry_run, LabelTable.reference]
  cases t.find? name with
  | none =>
    show (Except.ok none, (t.set name (.waiting [])).set name (.waiting [slot])) = _
    rw [LabelTable.set_set]
  | some b => cases b <;> rfl

end InPlace

/-! ## Calls -/

/-- A call to the table of labels. -/
inductive LabelCall where
  | define (name : String) (address : Word) (line : Nat)
  | reference (name : String) (slot : Nat)
  deriving DecidableEq, Repr

/-- What a call gives. -/
inductive LabelAnswer where
  /-- The label is defined now, and its slots wait no longer. -/
  | handed (slots : List Nat)
  | refused (fault : Fault)
  /-- The address of the label, if there is one.  Otherwise the slot waits. -/
  | found (address? : Option Word)
  deriving DecidableEq, Repr

namespace LabelTable

/-- Makes a call in place: the table is left as the call leaves it, refused or not. -/
def call (t : LabelTable) : LabelCall → LabelAnswer × LabelTable
  | .define name address line =>
    match (InPlace.define name address line).on t with
    | (.ok slots, u) => (.handed slots, u)
    | (.error fault, u) => (.refused fault, u)
  | .reference name slot =>
    match (InPlace.reference name slot).on t with
    | (.ok address?, u) => (.found address?, u)
    | (.error fault, u) => (.refused fault, u)

/-- Makes calls one after another. -/
def run (t : LabelTable) : List LabelCall → List LabelAnswer × LabelTable
  | [] => ([], t)
  | c :: cs => ((t.call c).1 :: ((t.call c).2.run cs).1, ((t.call c).2.run cs).2)

theorem call_define (t : LabelTable) (name : String) (address : Word) (line : Nat) :
    t.call (.define name address line) = match t.define name address line with
      | .ok (slots, u) => (.handed slots, u)
      | .error fault => (.refused fault, t) := by
  rw [call, InPlace.define_on]
  cases t.define name address line <;> rfl

theorem call_reference (t : LabelTable) (name : String) (slot : Nat) :
    t.call (.reference name slot) = (.found (t.reference name slot).1, (t.reference name slot).2) := by
  rw [call, InPlace.reference_on]

/-- A call that is refused leaves the table as it was, though it is made in place. -/
theorem call_of_refused {t : LabelTable} {c : LabelCall} {fault : Fault} (h : (t.call c).1 = .refused fault) : (t.call c).2 = t := by
  cases c with
  | define name address line =>
    rw [call_define] at h ⊢
    cases hd : t.define name address line with
    | ok result =>
      rw [hd] at h
      cases h
    | error e => rfl
  | reference name slot =>
    rw [call_reference] at h
    cases h

theorem run_concat (t : LabelTable) (cs : List LabelCall) (c : LabelCall) :
    t.run (cs ++ [c]) = ((t.run cs).1 ++ [((t.run cs).2.call c).1], ((t.run cs).2.call c).2) := by
  induction cs generalizing t with
  | nil => rfl
  | cons d cs ih => rw [List.cons_append, run, ih]; rfl

end LabelTable

namespace LabelCall

/-- The label of a call. -/
def name : LabelCall → String
  | define name _ _ => name
  | reference name _ => name

/-- What a call says of the place of a label. -/
def defines? (label : String) : LabelCall → Option (Word × Nat)
  | define name address line => if name = label then some (address, line) else none
  | reference _ _ => none

/-- The slot of a call that asks for a label. -/
def slot? (label : String) : LabelCall → Option Nat
  | define _ _ _ => none
  | reference name slot => if name = label then some slot else none

/-- The label that a call asks for. -/
def asked? : LabelCall → Option String
  | define _ _ _ => none
  | reference name _ => some name

/-- Address and line of the first definition of a label. -/
def definition? (label : String) (cs : List LabelCall) : Option (Word × Nat) := cs.findSome? (defines? label)

/-- The slots of the jumps to a label, in the order of the calls. -/
def slotsOf (label : String) (cs : List LabelCall) : List Nat := cs.filterMap (slot? label)

/-- What a call gives after some calls.  A jump finds the address of the first definition, the first definition hands out the slots
    of all jumps before it, and any later one is refused with the line of the first. -/
def answer (past : List LabelCall) : LabelCall → LabelAnswer
  | reference name _ => .found ((definition? name past).map (·.1))
  | define name _ _ =>
    match definition? name past with
    | none => .handed (slotsOf name past)
    | some (_, line) => .refused (.redefinedLabel name line)

/-- What a table knows of a label after some calls. -/
def binding? (label : String) (past : List LabelCall) : Option Binding :=
  match definition? label past with
  | some (address, line) => some (.bound address line)
  | none => if slotsOf label past = [] then none else some (.waiting (slotsOf label past))

variable {label : String} {past : List LabelCall} {c : LabelCall}

theorem definition?_concat : definition? label (past ++ [c]) = (definition? label past).or (defines? label c) := by
  rw [definition?, List.findSome?_append, List.findSome?_singleton, definition?]

theorem slotsOf_concat : slotsOf label (past ++ [c]) = slotsOf label past ++ (slot? label c).toList := by
  have last : [c].filterMap (slot? label) = (slot? label c).toList := by
    cases h : slot? label c with
    | none => exact List.filterMap_cons_none h
    | some n => exact List.filterMap_cons_some h
  rw [slotsOf, List.filterMap_append, last, slotsOf]

/-- A call says nothing of other labels. -/
theorem binding?_of_ne (h : c.name ≠ label) : binding? label (past ++ [c]) = binding? label past := by
  have place : defines? label c = none := by
    cases c with
    | define n address line => exact if_neg h
    | reference n slot => rfl
  have slot : slot? label c = none := by
    cases c with
    | define n address line => rfl
    | reference n slot => exact if_neg h
  rw [binding?, binding?, definition?_concat, slotsOf_concat, place, slot, Option.or_none, Option.toList_none, List.append_nil]

/-- No call changes what is known of a label that is defined. -/
theorem binding?_of_definition? {address : Word} {line : Nat} (h : definition? label past = some (address, line)) :
    binding? label past = some (.bound address line) ∧ binding? label (past ++ [c]) = some (.bound address line) := by
  have still : definition? label (past ++ [c]) = some (address, line) := by
    rw [definition?_concat, h]
    rfl
  constructor
  · rw [binding?, h]
  · rw [binding?, still]

theorem mem_names_of_definition? {d : Word × Nat} (h : definition? label past = some d) : label ∈ past.map name := by
  obtain ⟨c, hc, hd⟩ := List.exists_of_findSome?_eq_some h
  refine List.mem_map.2 ⟨c, hc, ?_⟩
  cases c with
  | define n address line =>
    rw [defines?] at hd
    split at hd
    · assumption
    · cases hd
  | reference n slot => cases hd

theorem isSome_of_mem {address : Word} {line : Nat} (h : define label address line ∈ past) : (definition? label past).isSome := by
  rw [definition?, List.findSome?_isSome_iff]
  exact ⟨_, h, by rw [defines?, if_pos rfl]; rfl⟩

/-- A label is not defined twice. -/
theorem answer_of_mem {address : Word} {line : Nat} (h : define label address line ∈ past) (other : Word) (later : Nat) :
    ∃ first, (define label other later).answer past = .refused (.redefinedLabel label first) := by
  obtain ⟨d, hd⟩ := Option.isSome_iff_exists.1 (isSome_of_mem h)
  exact ⟨d.2, by rw [answer, hd]⟩

/-- Labels that no call defines are only asked for. -/
theorem filter_names (past : List LabelCall) :
    (past.map name).filter (fun label => (definition? label past).isNone)
      = (past.filterMap asked?).filter fun label => (definition? label past).isNone := by
  rw [← List.filterMap_eq_map, List.filter_filterMap, List.filter_filterMap]
  refine List.filterMap_congr fun c hc => ?_
  cases c with
  | reference n slot => rfl
  | define n address line =>
    have defined := Option.isSome_iff_ne_none.1 (isSome_of_mem hc)
    simp [name, asked?, defined]

end LabelCall

/-! ## What a table knows after some calls -/

open LabelCall (definition? slotsOf binding?)

variable {past calls : List LabelCall} {c : LabelCall} {t : LabelTable}

/-- A table knows what the calls that were made say. -/
structure Records (t : LabelTable) (past : List LabelCall) : Prop where
  find : ∀ name, t.find? name = binding? name past
  names : t.names = (past.map LabelCall.name).eraseDups

namespace Records

theorem empty : Records {} [] where
  find _ := rfl
  names := rfl

theorem get?_eq (h : Records t past) (name : String) : t.get? name = (definition? name past).map (·.1) := by
  rw [LabelTable.get?, h.find, binding?]
  cases definition? name past with
  | some d => rfl
  | none => dsimp only; split <;> rfl

theorem unresolved_eq (h : Records t past) :
    t.unresolved = (past.filterMap LabelCall.asked?).eraseDups.filter fun name => (definition? name past).isNone := by
  have address : (fun name => (t.get? name).isNone) = fun name => (definition? name past).isNone := by
    funext name
    rw [h.get?_eq, Option.isNone_map]
  have nodup : t.names.Nodup := by
    rw [h.names]
    exact nodup_eraseDups _
  rw [LabelTable.unresolved_eq nodup, address, h.names, ← filter_eraseDups, LabelCall.filter_names, filter_eraseDups]

/-! ### One call -/

/-- The label of the last call is set to what is known of it now. -/
theorem set (h : Records t past) (c : LabelCall) {b : Binding} (hb : binding? c.name (past ++ [c]) = some b) :
    Records (t.set c.name b) (past ++ [c]) where
  find name := by
    rw [LabelTable.find?_set]
    by_cases here : name = c.name
    · rw [if_pos here, here, hb]
    · rw [if_neg here, h.find, LabelCall.binding?_of_ne fun e => here e.symm]
  names := by
    rw [LabelTable.names_set h.names, List.map_append]
    rfl

/-- A call about a label that is defined changes nothing. -/
theorem skip (h : Records t past) (c : LabelCall) {d : Word × Nat} (hd : definition? c.name past = some d) : Records t (past ++ [c]) where
  find name := by
    rw [h.find]
    by_cases here : name = c.name
    · obtain ⟨before, after⟩ := LabelCall.binding?_of_definition? (c := c) hd
      rw [here, before, after]
    · rw [LabelCall.binding?_of_ne fun e => here e.symm]
  names := by
    have known : c.name ∈ past.map LabelCall.name := LabelCall.mem_names_of_definition? hd
    rw [h.names, List.map_append, List.map_singleton, eraseDups_concat, if_pos known]

/-- A label that is defined is bound to its first address and line. -/
theorem find_bound (h : Records t past) {name : String} {d : Word × Nat} (hd : definition? name past = some d) :
    t.find? name = some (.bound d.1 d.2) := by
  rw [h.find, binding?, hd]

/-- A label that is not defined is not in the table, or waits for the slots that asked for it. -/
theorem find_free (h : Records t past) {name : String} (hd : definition? name past = none) :
    t.find? name = none ∧ slotsOf name past = [] ∨ t.find? name = some (.waiting (slotsOf name past)) := by
  rw [h.find, binding?, hd]
  by_cases none_asked : slotsOf name past = []
  · exact .inl ⟨if_pos none_asked, none_asked⟩
  · exact .inr (if_neg none_asked)

theorem define (h : Records t past) {name : String} (hd : definition? name past = none) (address : Word) (line : Nat) :
    t.define name address line = .ok (slotsOf name past, t.set name (.bound address line)) := by
  rw [LabelTable.define]
  rcases h.find_free hd with ⟨free, none_asked⟩ | waits
  · rw [free, none_asked]
  · rw [waits]

theorem reference (h : Records t past) {name : String} (hd : definition? name past = none) (slot : Nat) :
    t.reference name slot = (none, t.set name (.waiting (slotsOf name past ++ [slot]))) := by
  rw [LabelTable.reference]
  rcases h.find_free hd with ⟨free, none_asked⟩ | waits
  · rw [free, none_asked]
    rfl
  · rw [waits]

/-- A call is answered by the calls before it, and the table knows of it afterwards. -/
theorem call (h : Records t past) (c : LabelCall) : (t.call c).1 = c.answer past ∧ Records (t.call c).2 (past ++ [c]) := by
  cases c with
  | define name address line =>
    cases hd : definition? name past with
    | none =>
      have defined : binding? name (past ++ [.define name address line]) = some (.bound address line) := by
        rw [binding?, LabelCall.definition?_concat, hd, LabelCall.defines?, if_pos rfl]
        rfl
      rw [LabelTable.call_define, h.define hd, LabelCall.answer, hd]
      exact ⟨rfl, h.set (.define name address line) defined⟩
    | some d =>
      have refused : t.define name address line = .error (.redefinedLabel name d.2) := by
        rw [LabelTable.define, h.find_bound hd]
      rw [LabelTable.call_define, refused, LabelCall.answer, hd]
      exact ⟨rfl, h.skip (.define name address line) hd⟩
  | reference name slot =>
    cases hd : definition? name past with
    | none =>
      have waits : binding? name (past ++ [.reference name slot]) = some (.waiting (slotsOf name past ++ [slot])) := by
        rw [binding?, LabelCall.definition?_concat, hd, LabelCall.slotsOf_concat, LabelCall.slot?, if_pos rfl]
        simp [LabelCall.defines?]
      rw [LabelTable.call_reference, h.reference hd, LabelCall.answer, hd]
      exact ⟨rfl, h.set (.reference name slot) waits⟩
    | some d =>
      have found : t.reference name slot = (some d.1, t) := by
        rw [LabelTable.reference, h.find_bound hd]
      rw [LabelTable.call_reference, found, LabelCall.answer, hd]
      exact ⟨rfl, h.skip (.reference name slot) hd⟩

/-! ### Calls in a row -/

/-- Every call of a row is answered by those before it, and the table knows of all of them in the end. -/
theorem run (h : Records t past) (cs : List LabelCall) :
    (∀ i : Nat, (t.run cs).1[i]? = cs[i]?.map fun c : LabelCall => c.answer (past ++ cs.take i)) ∧ Records (t.run cs).2 (past ++ cs) := by
  -- `Records` ties the table to the calls so far, so it is what a call hands on to those after it
  induction cs generalizing t past with
  | nil => exact ⟨fun i => rfl, by rwa [List.append_nil]⟩
  | cons c cs ih =>
    obtain ⟨first, after⟩ := h.call c
    obtain ⟨others, last⟩ := ih after
    rw [List.append_assoc, List.singleton_append] at last
    refine ⟨?_, last⟩
    rintro (_ | i)
    · rw [List.take_zero, List.append_nil, LabelTable.run, first]
      rfl
    · rw [List.take_succ_cons, List.append_cons]
      exact others i

end Records

/-! ## The ledger of slots -/

/-- The slots that wait for a label. -/
def Binding.slots : Binding → List Nat
  | bound _ _ => []
  | waiting slots => slots

/-- The slots that a call hands out. -/
def LabelAnswer.slots : LabelAnswer → List Nat
  | handed slots => slots
  | refused _ | found _ => []

/-- The label that a call defines, if it is not refused. -/
def LabelCall.bound? : LabelCall × LabelAnswer → Option String
  | (define name _ _, .handed _) => some name
  | _ => none

/-- The slot that waits after a call with some answer. -/
def LabelCall.waits? : LabelCall × LabelAnswer → Option Nat
  | (reference _ slot, .found none) => some slot
  | _ => none

namespace LabelTable

/-- All slots that wait. -/
def waiting (t : LabelTable) : List Nat := t.entries.flatMap (·.2.slots)

/-- The slots of a name give way to those of its new binding. -/
theorem waiting_set (t : LabelTable) (name : String) (b : Binding) :
    (((t.find? name).elim [] Binding.slots) ++ (t.set name b).waiting).Perm (b.slots ++ t.waiting) := by
  obtain ⟨es⟩ := t
  show ((es.lookup name).elim [] Binding.slots ++ (setIn name b es).flatMap (·.2.slots)).Perm (b.slots ++ es.flatMap (·.2.slots))
  induction es with
  | nil => simp [setIn]
  | cons e es ih =>
    rw [List.lookup_cons, setIn]
    by_cases here : e.1 = name
    · rw [if_pos here, beq_iff_eq.2 here.symm]
      simp only [List.flatMap_cons]
      exact List.perm_append_comm_assoc ..
    · rw [if_neg here, beq_eq_false_iff_ne.2 fun h => here h.symm]
      simp only [List.flatMap_cons]
      exact (List.perm_append_comm_assoc ..).trans ((ih.append_left _).trans (List.perm_append_comm_assoc ..))

/-- What a call hands out and what waits after it is what waited before, and the slot that the call makes wait. -/
theorem waiting_call (t : LabelTable) (c : LabelCall) :
    ((t.call c).1.slots ++ (t.call c).2.waiting).Perm (t.waiting ++ (LabelCall.waits? (c, (t.call c).1)).toList) := by
  cases c with
  | define name address line =>
    have ledger := t.waiting_set name (.bound address line)
    rw [call_define, define]
    cases hf : t.find? name with
    | none =>
      rw [hf] at ledger
      simpa [LabelAnswer.slots, LabelCall.waits?, Binding.slots] using ledger
    | some b =>
      rw [hf] at ledger
      cases b with
      | bound first line => simp [LabelAnswer.slots, LabelCall.waits?]
      | waiting slots => simpa [LabelAnswer.slots, LabelCall.waits?, Binding.slots] using ledger
  | reference name slot =>
    rw [call_reference, reference]
    cases hf : t.find? name with
    | none =>
      have ledger := t.waiting_set name (.waiting [slot])
      rw [hf] at ledger
      exact ledger.trans List.perm_append_comm
    | some b =>
      cases b with
      | bound address line => simp [LabelAnswer.slots, LabelCall.waits?]
      | waiting slots =>
        have ledger := t.waiting_set name (.waiting (slots ++ [slot]))
        rw [hf] at ledger
        simp only [Option.elim_some, Binding.slots, List.append_assoc] at ledger
        exact ((List.perm_append_left_iff slots).1 ledger).trans List.perm_append_comm

theorem waiting_run (t : LabelTable) (cs : List LabelCall) :
    ((t.run cs).1.flatMap LabelAnswer.slots ++ (t.run cs).2.waiting).Perm
      (t.waiting ++ (cs.zip (t.run cs).1).filterMap LabelCall.waits?) := by
  induction cs generalizing t with
  | nil => simp [run]
  | cons c cs ih =>
    have first := t.waiting_call c
    have others := ih (t.call c).2
    have waits (a : LabelAnswer) (rest : List (LabelCall × LabelAnswer)) : ((c, a) :: rest).filterMap LabelCall.waits?
        = (LabelCall.waits? (c, a)).toList ++ rest.filterMap LabelCall.waits? := by
      rw [List.filterMap_cons]
      cases LabelCall.waits? (c, a) with
      | none => rfl
      | some n => rfl
    rw [run, List.flatMap_cons, List.zip_cons_cons, waits, List.append_assoc, ← List.append_assoc t.waiting]
    refine (others.append_left _).trans ?_
    rw [← List.append_assoc]
    exact first.append_right _

end LabelTable

/-! ## All rows of calls -/

theorem LabelCall.bound?_eq_some {a : LabelAnswer} {name : String} (h : bound? (c, a) = some name) :
    ∃ address line slots, c = define name address line ∧ a = .handed slots := by
  unfold bound? at h
  split at h
  · next label address line slots same =>
    cases same
    cases h
    exact ⟨address, line, slots, rfl, rfl⟩
  · cases h

/-- Calls that are answered by those before them define no label twice. -/
theorem nodup_bound {answers : List LabelAnswer}
    (h : ∀ i : Nat, answers[i]? = calls[i]?.map fun c : LabelCall => c.answer (calls.take i)) :
    ((calls.zip answers).filterMap LabelCall.bound?).Nodup := by
  rw [List.Nodup, List.pairwise_filterMap, List.pairwise_iff_getElem]
  rintro i j hi hj before name first _ second rfl
  rw [List.getElem_zip] at first second
  obtain ⟨a, k, -, ci, -⟩ := LabelCall.bound?_eq_some first
  obtain ⟨b, l, slots, cj, handed⟩ := LabelCall.bound?_eq_some second
  rw [List.length_zip, Nat.lt_min] at hi hj
  have earlier : LabelCall.define name a k ∈ calls.take j := by
    refine List.mem_of_getElem? (i := i) ?_
    rw [List.getElem?_take_of_lt before, List.getElem?_eq_getElem hi.1, ci]
  obtain ⟨line, refused⟩ := LabelCall.answer_of_mem earlier b l
  have answer := h j
  rw [List.getElem?_eq_getElem hj.1, List.getElem?_eq_getElem hj.2, cj, handed, Option.map_some, refused] at answer
  cases answer

/-- The table of labels hands out each waiting slot exactly once.  Whatever calls are made on a new table:
    1. Every call is answered as the calls before it say: a jump finds the address of the definition before it, or else its slot
       waits; the first definition hands out the slots of all earlier jumps to the label, in order; and a later one is refused with
       the line of the first.
    2. A refused call changes nothing.
    3. The definitions that are not refused are of different labels.
    4. What was handed out, with what still waits, are the slots that were made to wait, each as often as that.
    5. A label has the address of its first definition.
    6. The unresolved labels are those that are asked for and not defined, in the order in which they were first asked for. -/
theorem slots_handed_out (calls : List LabelCall) :
    (∀ i : Nat, (LabelTable.run {} calls).1[i]? = calls[i]?.map fun c : LabelCall => c.answer (calls.take i)) ∧
    (∀ (i : Nat) (fault : Fault), (LabelTable.run {} calls).1[i]? = some (.refused fault) →
      (LabelTable.run {} (calls.take (i + 1))).2 = (LabelTable.run {} (calls.take i)).2) ∧
    ((calls.zip (LabelTable.run {} calls).1).filterMap LabelCall.bound?).Nodup ∧
    ((LabelTable.run {} calls).1.flatMap LabelAnswer.slots ++ (LabelTable.run {} calls).2.waiting).Perm
      ((calls.zip (LabelTable.run {} calls).1).filterMap LabelCall.waits?) ∧
    (∀ name, (LabelTable.run {} calls).2.get? name = (definition? name calls).map (·.1)) ∧
    (LabelTable.run {} calls).2.unresolved
      = (calls.filterMap LabelCall.asked?).eraseDups.filter fun name => (definition? name calls).isNone := by
  obtain ⟨answers, last⟩ := Records.empty.run calls
  refine ⟨answers, ?_, nodup_bound answers, LabelTable.waiting_run {} calls, last.get?_eq, last.unresolved_eq⟩
  intro i fault refused
  rw [answers] at refused
  obtain ⟨c, hc, hf⟩ := Option.map_eq_some_iff.1 refused
  obtain ⟨-, before⟩ := Records.empty.run (calls.take i)
  rw [List.take_add_one, hc, Option.toList_some, LabelTable.run_concat]
  exact LabelTable.call_of_refused ((before.call c).1.trans hf)

/-- Two jumps wait for `a`, which is defined, found by a third and refused when it is defined again; a jump to `b` waits on. -/
theorem slots_handed_out_forward :
    let calls : List LabelCall := [.reference "a" 0, .reference "b" 1, .reference "a" 3, .define "a" 0x40 5, .reference "a" 7,
      .define "a" 0x44 9]
    (LabelTable.run {} calls).1[3]? = some (.handed [0, 3]) ∧
      (LabelTable.run {} calls).1[5]? = some (.refused (.redefinedLabel "a" 5)) ∧
      (LabelTable.run {} (calls.take 6)).2 = (LabelTable.run {} (calls.take 5)).2 ∧
      (LabelTable.run {} calls).2.get? "a" = some 0x40 ∧ (LabelTable.run {} calls).2.unresolved = ["b"] := by
  intro calls
  obtain ⟨answers, unchanged, -, -, address, unresolved⟩ := slots_handed_out calls
  have refused : (LabelTable.run {} calls).1[5]? = some (.refused (.redefinedLabel "a" 5)) := (answers 5).trans rfl
  exact ⟨(answers 3).trans rfl, refused, unchanged 5 _ refused, (address "a").trans rfl, unresolved.trans (by decide +kernel)⟩

end M32.Assembly
