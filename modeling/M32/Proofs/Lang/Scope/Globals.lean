/-
  How many bytes the globals of a program take.

  `total_globals`: as many as the types of all its global variables have.  Each size is taken when its variable is declared,
  at a time when later structs are not known, but the sizes that a type table knows stay the same when it learns of another
  struct (`Extends.sizeOf`, `extends_define`).
-/
import M32.Proofs.Lang.Scope.Collected

namespace M32.Lang

/-! ## Sizes that stay -/

namespace TypeTable

variable {t u : TypeTable}

/-- Whether a type table has all layouts of another one. -/
def Extends (u t : TypeTable) : Prop :=
  ∀ name s l, t.find? name = some s → s.layout? = some l → u.find? name = some s

/-- Sizes that a type table knows are the same in one that extends it. -/
theorem Extends.sizeOf (h : u.Extends t) {ty : Ty} {size : Nat} (hs : t.sizeOf ty = .ok size) : u.sizeOf ty = .ok size := by
  induction ty generalizing size with
  | scalar s => exact hs
  | pointer target => exact hs
  | array elem length ih =>
    obtain ⟨n, he, fits⟩ := sizeOf_array_eq_ok_iff.1 hs
    exact sizeOf_array_eq_ok_iff.2 ⟨n, ih he, fits⟩
  | struct name =>
    obtain ⟨s, l, hf, hl, same⟩ := sizeOf_struct_eq_ok_iff.1 hs
    exact sizeOf_struct_eq_ok_iff.2 ⟨s, l, h name s l hf hl, hl, same⟩

theorem declare_eq_ok {name : String} (hd : t.declare name = .ok u) :
    t.find? name = none ∧ u = ⟨t.structs ++ [⟨name, none⟩]⟩ := by
  unfold declare at hd
  split at hd
  · cases hd
  · next fresh =>
    cases hd
    exact ⟨Option.not_isSome_iff_eq_none.1 fresh, rfl⟩

/-- A struct stands behind the others, under a name that none of them had, with the row of its fields. -/
theorem define_eq_ok {name : String} {fields : List Decl} (hd : t.declare name = .ok u) {v : TypeTable}
    (hv : u.define name fields = .ok v) : ∃ layout, u.extend (fun _ => (Ty.struct name).text) {} fields = .ok layout ∧
      v = ⟨t.structs ++ [⟨name, some layout⟩]⟩ := by
  obtain ⟨fresh, rfl⟩ := declare_eq_ok hd
  unfold define at hv
  cases hx : extend ⟨t.structs ++ [⟨name, none⟩]⟩ (fun _ => (Ty.struct name).text) {} fields with
  | error e => rw [hx] at hv; cases hv
  | ok layout =>
    rw [hx] at hv
    cases hv
    have other : ∀ s ∈ t.structs, s.name ≠ name := by simpa [find?] using fresh
    have kept : (t.structs.map fun s => if s.name = name then { s with layout? := some layout } else s) = t.structs :=
      (List.map_congr_left (g := id) fun s hs => if_neg (other s hs)).trans (List.map_id _)
    refine ⟨layout, rfl, ?_⟩
    rw [List.map_append, kept, List.map_singleton, if_pos rfl]

/-- Structs that are added behind the others change no layout. -/
theorem extends_append (t : TypeTable) (more : List Struct) : Extends ⟨t.structs ++ more⟩ t := by
  intro name s l hf _
  rw [find?] at hf ⊢
  rw [List.find?_append, hf, Option.some_or]

/-- A struct gets its layout under a name that no struct had. -/
theorem extends_define {name : String} {fields : List Decl} (hd : t.declare name = .ok u) {v : TypeTable}
    (hv : u.define name fields = .ok v) : v.Extends t := by
  obtain ⟨layout, -, rfl⟩ := define_eq_ok hd hv
  exact extends_append t _

/-! ## Totals -/

/-- The number of bytes that some variables take. -/
def total (t : TypeTable) : List Decl → Except Fault Nat
  | [] => .ok 0
  | d :: ds => do return (← t.sizeOf d.ty) + (← t.total ds)

theorem total_cons_eq_ok_iff {d : Decl} {ds : List Decl} {bytes : Nat} : t.total (d :: ds) = .ok bytes ↔
    ∃ size rest, t.sizeOf d.ty = .ok size ∧ t.total ds = .ok rest ∧ bytes = size + rest := by
  rw [total]
  cases t.sizeOf d.ty with
  | error e => exact ⟨nofun, by rintro ⟨_, _, ⟨⟩, _⟩⟩
  | ok size =>
    cases t.total ds with
    | error e => exact ⟨nofun, by rintro ⟨_, _, _, ⟨⟩, _⟩⟩
    | ok rest =>
      constructor
      · rintro ⟨⟩
        exact ⟨size, rest, rfl, rfl, rfl⟩
      · rintro ⟨_, _, ⟨⟩, ⟨⟩, rfl⟩
        rfl

theorem total_concat {ds : List Decl} {d : Decl} {bytes size : Nat} (h : t.total ds = .ok bytes) (hs : t.sizeOf d.ty = .ok size) :
    t.total (ds ++ [d]) = .ok (bytes + size) := by
  induction ds generalizing bytes with
  | nil =>
    cases h
    exact total_cons_eq_ok_iff.2 ⟨size, 0, hs, rfl, Nat.add_comm _ _⟩
  | cons e ds ih =>
    obtain ⟨first, rest, he, hr, rfl⟩ := total_cons_eq_ok_iff.1 h
    exact total_cons_eq_ok_iff.2 ⟨first, rest + size, he, ih hr, Nat.add_assoc _ _ _⟩

theorem Extends.total (h : u.Extends t) {ds : List Decl} {bytes : Nat} (ht : t.total ds = .ok bytes) :
    u.total ds = .ok bytes := by
  induction ds generalizing bytes with
  | nil => exact ht
  | cons d ds ih =>
    obtain ⟨size, rest, hs, hr, rfl⟩ := total_cons_eq_ok_iff.1 ht
    exact total_cons_eq_ok_iff.2 ⟨size, rest, h.sizeOf hs, ih hr, rfl⟩

end TypeTable

/-! ## Globals -/

/-- The global variables among some definitions. -/
def globalsOf (ds : List Def) : List Decl :=
  ds.filterMap fun
    | .global d => some d
    | _ => none

theorem globalsOf_append (ds es : List Def) : globalsOf (ds ++ es) = globalsOf ds ++ globalsOf es := List.filterMap_append

section

variable {ds es : List Def} {s s' : Scope}

/-- The row of global variables. -/
def Scope.globals (s : Scope) : Layout := s.globals?.getD {}

/-- With every definition, the globals are as long as their types say. -/
theorem total_globals_add (h : s.types.total (globalsOf ds) = .ok s.globals.size) {d : Def} (hd : s.add d = (s', none)) :
    s'.types.total (globalsOf (ds ++ [d])) = .ok s'.globals.size := by
  rw [globalsOf_append]
  cases d with
  | struct name fields =>
    obtain ⟨t, u, h1, h2, rfl⟩ := Scope.add_struct_eq_ok hd
    rw [show globalsOf [.struct name fields] = [] from rfl, List.append_nil]
    exact (TypeTable.extends_define h1 h2).total h
  | global g =>
    obtain ⟨row, hx, rfl⟩ := Scope.add_global_eq_ok hd
    obtain ⟨size, hs, -, -, rest⟩ := TypeTable.extend_cons_eq_ok hx
    cases rest
    exact TypeTable.total_concat h hs
  | function f =>
    obtain ⟨sig, -, rfl⟩ := Scope.add_function_eq_ok hd
    rw [show globalsOf [.function f] = [] from rfl, List.append_nil]
    exact h

theorem total_globals_addAll (h : s.types.total (globalsOf ds) = .ok s.globals.size) (he : s.addAll es = (s', none)) :
    s'.types.total (globalsOf (ds ++ es)) = .ok s'.globals.size := by
  induction es generalizing ds s with
  | nil =>
    cases he
    rwa [List.append_nil]
  | cons d es ih =>
    rw [Scope.addAll] at he
    split at he
    · cases he
    · next next hd =>
      rw [List.append_cons]
      exact ih (total_globals_add h hd) he

end

/-- The globals of a program take as many bytes as their types have. -/
theorem total_globals {map : MemoryMap} {p : Program} {scope : Scope} (h : Scope.ofProgram map p = .ok scope) :
    scope.types.total (globalsOf p.defs) = .ok scope.globals.size := by
  have none_yet : ({ map } : Scope).types.total (globalsOf []) = .ok ({ map } : Scope).globals.size := rfl
  exact total_globals_addAll none_yet (Scope.ofProgram_eq_ok_iff.1 h).1

end M32.Lang
