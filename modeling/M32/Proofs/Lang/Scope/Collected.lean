/-
  What the names of a program mean, once all its definitions are collected.

  1. `add_struct_eq_ok`, `add_global_eq_ok` and `add_function_eq_ok` say what a definition adds to a scope.
  2. `Collected` is what holds after some definitions: the functions are those of the definitions, in order and with
     different names, their frames are rows, and structs take whole words and do not fill the address space.  Every
     definition that is added keeps it (`Collected.add`), so it holds of the scope of a program (`collected_of_ofProgram`).
-/
import M32.Proofs.Lang.Scope.Rows

namespace M32.Lang

/-! ## Sizes -/

namespace TypeTable

theorem extend_size {t : TypeTable} {whole : Decl → String} {l l' : Layout} {ds : List Decl} (hl : l.size < addressSpace)
    (h : t.extend whole l ds = .ok l') : l'.size < addressSpace := by
  induction ds generalizing l with
  | nil => cases h; exact hl
  | cons d ds ih =>
    obtain ⟨size, -, -, fits, rest⟩ := extend_cons_eq_ok h
    exact ih fits rest

/-- Whether the structs that have a layout leave some of the address space free. -/
def Bounded (t : TypeTable) : Prop := ∀ s ∈ t.structs, ∀ l, s.layout? = some l → l.size < addressSpace

theorem Bounded.sizeOf_lt {t : TypeTable} (h : t.Bounded) {ty : Ty} {size : Nat} (hs : t.sizeOf ty = .ok size) :
    size < addressSpace := by
  cases ty with
  | scalar s => cases hs; decide
  | pointer target => cases hs; decide
  | array elem length =>
    obtain ⟨n, -, -, fits, rfl⟩ := sizeOf_array_eq_ok_iff.1 hs
    exact fits
  | struct name =>
    obtain ⟨s, l, hf, hl, rfl⟩ := sizeOf_struct_eq_ok_iff.1 hs
    exact h s (List.mem_of_find?_eq_some hf) l hl

theorem Bounded.declare {t t' : TypeTable} {name : String} (h : t.Bounded) (hd : t.declare name = .ok t') : t'.Bounded := by
  unfold TypeTable.declare at hd
  split at hd
  · cases hd
  · cases hd
    intro s hs l hl
    rcases List.mem_append.1 hs with hs | hs
    · exact h s hs l hl
    · rw [List.mem_singleton.1 hs] at hl
      cases hl

theorem Bounded.define {t t' : TypeTable} {name : String} {fields : List Decl} (h : t.Bounded)
    (hd : t.define name fields = .ok t') : t'.Bounded := by
  unfold TypeTable.define at hd
  cases hx : t.extend (fun _ => (Ty.struct name).text) {} fields with
  | error e => rw [hx] at hd; cases hd
  | ok layout =>
    rw [hx] at hd
    cases hd
    intro s hs l hl
    obtain ⟨u, hu, rfl⟩ := List.mem_map.1 hs
    split at hl
    · cases hl
      exact extend_size (l := {}) (by decide) hx
    · exact h u hu l hl

end TypeTable

/-! ## Definitions one after another -/

/-- The functions among some definitions. -/
def functionsOf (ds : List Def) : List Function := (Program.mk ds).functions

theorem functionsOf_append (ds es : List Def) : functionsOf (ds ++ es) = functionsOf ds ++ functionsOf es :=
  List.filterMap_append

/-- What a scope knows after some definitions. -/
structure Collected (map : MemoryMap) (ds : List Def) (s : Scope) : Prop where
  map : s.map = map
  names : s.functions.map (·.name) = (functionsOf ds).map (·.name)
  nodup : (s.functions.map (·.name)).Nodup
  bounded : s.types.Bounded
  aligned : s.types.Aligned
  framed : ∀ f ∈ s.functions, f.Framed

theorem collected_empty (map : MemoryMap) : Collected map [] { map } where
  map := rfl
  names := rfl
  nodup := List.nodup_nil
  bounded := fun s hs => by simp at hs
  aligned := fun s hs => by simp at hs
  framed := fun f hf => by simp at hf

theorem Scope.function?_eq_none_iff {s : Scope} {name : String} : s.function? name = none ↔ name ∉ s.functions.map (·.name) := by
  simp [Scope.function?]

theorem Scope.function?_isSome_iff {s : Scope} {name : String} : (s.function? name).isSome ↔ name ∈ s.functions.map (·.name) := by
  rw [← Option.ne_none_iff_isSome, ne_eq, function?_eq_none_iff, Classical.not_not]

/-- The signature of a new function has its name, which no function had, and its frame holds parameters and locals. -/
theorem Scope.signature_eq_ok {s : Scope} {f : Function} {sig : Signature} (h : s.signature f = .ok sig) :
    sig.name = f.name ∧ s.function? f.name = none ∧ s.extend {} (f.params ++ f.locals) = .ok sig.frame ∧
      sig.arity = f.params.length := by
  unfold signature at h
  cases hf : s.function? f.name with
  | some g => simp [hf] at h; cases h
  | none =>
    simp only [hf, Option.isSome_none, Bool.false_eq_true, if_false] at h
    cases hu : f.result.bind s.types.unknown? with
    | some fault => simp only [hu] at h; cases h
    | none =>
      simp only [hu] at h
      cases hx : s.extend {} (f.params ++ f.locals) with
      | error fault => simp only [hx] at h; cases h
      | ok frame => simp only [hx, pure, Except.pure] at h; cases h; exact ⟨rfl, rfl, rfl, rfl⟩

/-! ## What a definition adds -/

namespace Scope

variable {s s' : Scope}

theorem add_struct_eq_ok {name : String} {fields : List Decl} (h : s.add (.struct name fields) = (s', none)) :
    ∃ t u, s.types.declare name = .ok t ∧ t.define name fields = .ok u ∧ s' = { s with types := u } := by
  simp only [add, addStruct] at h
  cases h1 : s.types.declare name with
  | error e => simp only [h1] at h; cases h
  | ok t =>
    cases h2 : t.define name fields with
    | error e => simp only [h1, h2] at h; cases h
    | ok u =>
      simp only [h1, h2] at h
      cases h
      exact ⟨t, u, rfl, h2, rfl⟩

theorem add_global_eq_ok {d : Decl} (h : s.add (.global d) = (s', none)) :
    ∃ row, s.extend (s.globals?.getD {}) [d] = .ok row ∧ s' = { s with globals? := some row } := by
  simp only [add, addGlobal] at h
  cases hx : s.extend (s.globals?.getD {}) [d] with
  | error e => simp only [hx] at h; cases h
  | ok row =>
    simp only [hx] at h
    cases h
    exact ⟨row, rfl, rfl⟩

theorem add_function_eq_ok {f : Function} (h : s.add (.function f) = (s', none)) :
    ∃ sig, s.signature f = .ok sig ∧ s' = { s with functions := s.functions ++ [sig] } := by
  simp only [add] at h
  cases hs : s.signature f with
  | error e => simp only [hs] at h; cases h
  | ok sig =>
    simp only [hs] at h
    cases h
    exact ⟨sig, rfl, rfl⟩

end Scope

/-! ## What all definitions keep -/

namespace Collected

variable {map : MemoryMap} {ds : List Def} {s s' : Scope}

theorem add (h : Collected map ds s) {d : Def} (hd : s.add d = (s', none)) : Collected map (ds ++ [d]) s' := by
  cases d with
  | struct name fields =>
    have hn : functionsOf (ds ++ [.struct name fields]) = functionsOf ds := by
      rw [functionsOf_append]
      exact List.append_nil _
    obtain ⟨t, u, h1, h2, rfl⟩ := Scope.add_struct_eq_ok hd
    exact ⟨h.map, by rw [hn]; exact h.names, h.nodup, (h.bounded.declare h1).define h2, (h.aligned.declare h1).define h2, h.framed⟩
  | global g =>
    have hn : functionsOf (ds ++ [.global g]) = functionsOf ds := by
      rw [functionsOf_append]
      exact List.append_nil _
    obtain ⟨row, -, rfl⟩ := Scope.add_global_eq_ok hd
    exact ⟨h.map, by rw [hn]; exact h.names, h.nodup, h.bounded, h.aligned, h.framed⟩
  | function f =>
    have hn : functionsOf (ds ++ [.function f]) = functionsOf ds ++ [f] := by
      rw [functionsOf_append]; rfl
    obtain ⟨sig, hs, rfl⟩ := Scope.add_function_eq_ok hd
    obtain ⟨name, fresh, frame, arity⟩ := Scope.signature_eq_ok hs
    refine ⟨h.map, ?_, ?_, h.bounded, h.aligned, ?_⟩
    · rw [hn, List.map_append, List.map_append, h.names, List.map_singleton, List.map_singleton, name]
    · rw [List.map_append, List.map_singleton, name]
      refine List.nodup_append.2 ⟨h.nodup, by simp, ?_⟩
      intro a ha b hb
      rw [List.mem_singleton.1 hb]
      rintro rfl
      exact Scope.function?_eq_none_iff.1 fresh ha
    · intro g hg
      rcases List.mem_append.1 hg with hg | hg
      · exact h.framed g hg
      · rw [List.mem_singleton.1 hg]
        obtain ⟨row, length⟩ := TypeTable.row_extend (l := {}) h.aligned rfl frame
        refine ⟨row, ?_⟩
        rw [length, arity, List.length_append]
        exact Nat.le_trans (Nat.le_add_right _ _) (Nat.le_add_left _ _)

theorem addAll (h : Collected map ds s) {es : List Def} (he : s.addAll es = (s', none)) : Collected map (ds ++ es) s' := by
  induction es generalizing ds s with
  | nil =>
    cases he
    rwa [List.append_nil]
  | cons d es ih =>
    rw [Scope.addAll] at he
    split at he
    · cases he
    · next s1 hd =>
      rw [List.append_cons]
      exact ih (h.add hd) he

end Collected

/-- A program has a scope if all its definitions are accepted, with the function that it starts with among them. -/
theorem Scope.ofProgram_eq_ok_iff {map : MemoryMap} {p : Program} {scope : Scope} : Scope.ofProgram map p = .ok scope ↔
    ({ map } : Scope).addAll p.defs = (scope, none) ∧ (scope.function? entryName).isSome := by
  unfold Scope.ofProgram Scope.collect
  rcases ({ map } : Scope).addAll p.defs with ⟨s, fault?⟩
  cases fault? with
  | some e => exact ⟨nofun, fun h => by cases h.1⟩
  | none =>
    by_cases entry : (s.function? entryName).isSome
    · simp only [entry, if_true]
      constructor
      · rintro ⟨⟩
        exact ⟨rfl, entry⟩
      · rintro ⟨⟨⟩, -⟩
        rfl
    · simp only [entry]
      refine ⟨nofun, ?_⟩
      rintro ⟨⟨⟩, found⟩
      exact absurd found entry

/-- The scope of a program is what its definitions say, and it has the function that a program starts with. -/
theorem collected_of_ofProgram {map : MemoryMap} {p : Program} {scope : Scope} (h : Scope.ofProgram map p = .ok scope) :
    Collected map p.defs scope ∧ (scope.function? entryName).isSome := by
  obtain ⟨all, entry⟩ := Scope.ofProgram_eq_ok_iff.1 h
  exact ⟨(collected_empty map).addAll all, entry⟩

end M32.Lang
