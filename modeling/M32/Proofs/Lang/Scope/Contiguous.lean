/-
  Where the fields of structs, the globals and the variables of functions lie.

  1. `Laid` is how a row comes about: variables of different names fill it from its start, each with the size of its type.  A row
     stays laid when more structs are known (`Laid.mono`), and `TypeTable.extend` lays the variables that it adds (`laid_extend`).
  2. `Rows` goes over all rows of a scope.  Every definition keeps that they are laid and that struct sizes are those of
     `HasBytes` (`rows_add`).
  3. `Contiguous` is what laid rows look like.  `layouts_contiguous` puts both together, and says that no program that
     overflows has a scope.
-/
import M32.Proofs.Lang.Scope.Sizes
import Mathlib.Data.List.Forall2
import Mathlib.Data.List.Nodup

namespace M32.Lang

/-! ## Rows as they come about -/

/-- A variable as it is declared. -/
def Var.decl (v : Var) : Decl := ⟨v.ty, v.name⟩

/-- Whether variables fill a stretch of bytes, each with as many as its type has. -/
def Filled (t : TypeTable) (start : Nat) : List Var → Nat → Prop
  | [], stop => stop = start
  | v :: vars, stop => v.offset = start ∧ ∃ n, t.sizeOf v.ty = .ok n ∧ Filled t (start + n) vars stop

/-- Whether a byte of a row belongs to one of some variables. -/
def Covers (t : TypeTable) (vars : List Var) (k : Nat) : Prop :=
  ∃ v ∈ vars, ∃ n, t.sizeOf v.ty = .ok n ∧ v.offset ≤ k ∧ k < v.offset + n

/-- Whether variables, as declared and with different names, fill a layout. -/
structure Laid (t : TypeTable) (row : List Decl) (l : Layout) : Prop where
  declared : l.vars.map Var.decl = row
  distinct : (l.vars.map Var.name).Nodup
  filled : Filled t 0 l.vars l.size
  bounded : l.size < addressSpace

section

variable {t u : TypeTable} {start stop : Nat} {vars : List Var} {v : Var} {row : List Decl} {l : Layout}

namespace Filled

theorem mono (h : Filled t start vars stop) (ext : u.Extends t) : Filled u start vars stop := by
  induction vars generalizing start with
  | nil => exact h
  | cons v vars ih =>
    obtain ⟨hv, n, hs, rest⟩ := h
    exact ⟨hv, n, ext.sizeOf hs, ih rest⟩

theorem le (h : Filled t start vars stop) : start ≤ stop := by
  induction vars generalizing start with
  | nil => exact Nat.le_of_eq h.symm
  | cons v vars ih =>
    obtain ⟨-, n, -, rest⟩ := h
    exact Nat.le_trans (Nat.le_add_right start n) (ih rest)

/-- Some variables and then others. -/
theorem append_iff {more : List Var} :
    Filled t start (vars ++ more) stop ↔ ∃ middle, Filled t start vars middle ∧ Filled t middle more stop := by
  induction vars generalizing start with
  | nil =>
    constructor
    · intro h
      exact ⟨start, rfl, h⟩
    · rintro ⟨middle, rfl, h⟩
      exact h
  | cons v vars ih =>
    constructor
    · rintro ⟨hv, n, hs, rest⟩
      obtain ⟨middle, before, after⟩ := ih.1 rest
      exact ⟨middle, ⟨hv, n, hs, before⟩, after⟩
    · rintro ⟨middle, ⟨hv, n, hs, before⟩, after⟩
      exact ⟨hv, n, hs, ih.2 ⟨middle, before, after⟩⟩

/-- A variable lies behind those before it, and those after it lie behind it. -/
theorem split_at (h : Filled t start vars stop) {i : Nat} (hv : vars[i]? = some v) :
    ∃ n, t.sizeOf v.ty = .ok n ∧ Filled t start (vars.take i) v.offset ∧ Filled t (v.offset + n) (vars.drop (i + 1)) stop := by
  obtain ⟨lt, rfl⟩ := List.getElem?_eq_some_iff.1 hv
  rw [← List.take_append_drop i vars, List.drop_eq_getElem_cons lt] at h
  obtain ⟨middle, before, here, n, hs, after⟩ := append_iff.1 h
  exact ⟨n, hs, here ▸ before, here ▸ after⟩

/-- The bytes of the variables are all bytes of the stretch. -/
theorem covers_iff (h : Filled t start vars stop) (k : Nat) : Covers t vars k ↔ start ≤ k ∧ k < stop := by
  induction vars generalizing start with
  | nil =>
    constructor
    · rintro ⟨v, hv, -⟩
      cases hv
    · intro hk
      have stop_eq : stop = start := h
      omega
  | cons v vars ih =>
    obtain ⟨rfl, n, hs, rest⟩ := h
    have le := rest.le
    constructor
    · rintro ⟨w, hw, m, hm, first, last⟩
      rcases List.mem_cons.1 hw with rfl | hw
      · obtain rfl := Except.ok.inj (hs.symm.trans hm)
        omega
      · have later := (ih rest).1 ⟨w, hw, m, hm, first, last⟩
        omega
    · intro hk
      by_cases here : k < v.offset + n
      · exact ⟨v, List.mem_cons_self, n, hs, hk.1, here⟩
      · obtain ⟨w, hw, later⟩ := (ih rest).2 ⟨Nat.le_of_not_lt here, hk.2⟩
        exact ⟨w, List.mem_cons_of_mem v hw, later⟩

theorem total (h : Filled t start vars stop) : ∃ n, t.total (vars.map Var.decl) = .ok n ∧ stop = start + n := by
  induction vars generalizing start with
  | nil => exact ⟨0, rfl, h⟩
  | cons v vars ih =>
    obtain ⟨-, n, hs, rest⟩ := h
    obtain ⟨m, hm, rfl⟩ := ih rest
    exact ⟨n + m, TypeTable.total_cons_eq_ok_iff.2 ⟨n, m, hs, hm, rfl⟩, Nat.add_assoc start n m⟩

end Filled

namespace Laid

theorem empty (t : TypeTable) : Laid t [] {} where
  declared := rfl
  distinct := List.nodup_nil
  filled := rfl
  bounded := by decide

theorem mono (h : Laid t row l) (ext : u.Extends t) : Laid u row l :=
  ⟨h.declared, h.distinct, h.filled.mono ext, h.bounded⟩

theorem total (h : Laid t row l) : t.total row = .ok l.size := by
  obtain ⟨n, hn, size⟩ := h.filled.total
  rw [← h.declared, hn, size, Nat.zero_add]

/-- One more variable at the end. -/
theorem push (h : Laid t row l) {d : Decl} {n : Nat} (hs : t.sizeOf d.ty = .ok n) (fresh : l.find? d.name = none)
    (fits : l.size + n < addressSpace) : Laid t (row ++ [d]) ⟨l.vars ++ [⟨d.name, d.ty, l.size⟩], l.size + n⟩ where
  declared := by rw [List.map_append, h.declared]; rfl
  distinct := by
    have other : ∀ v ∈ l.vars, v.name ≠ d.name := by simpa [Layout.find?] using fresh
    rw [List.map_append]
    refine List.nodup_append.2 ⟨h.distinct, List.nodup_singleton _, ?_⟩
    intro a ha b hb
    obtain ⟨v, hv, rfl⟩ := List.mem_map.1 ha
    rw [List.mem_singleton.1 hb]
    exact other v hv
  filled := Filled.append_iff.2 ⟨l.size, h.filled, rfl, n, hs, rfl⟩
  bounded := fits

end Laid

/-- Variables that are added to a row are laid at its end. -/
theorem laid_extend {whole : Decl → String} {l' : Layout} {added : List Decl} (h : Laid t row l)
    (hx : t.extend whole l added = .ok l') : Laid t (row ++ added) l' := by
  induction added generalizing row l with
  | nil =>
    cases hx
    rwa [List.append_nil]
  | cons d added ih =>
    obtain ⟨n, hs, fresh, fits, rest⟩ := TypeTable.extend_cons_eq_ok hx
    rw [List.append_cons]
    exact ih (h.push hs fresh fits) rest

end

/-! ## All rows of a scope -/

/-- The structs among some definitions, with their fields. -/
def structsOf (ds : List Def) : List (String × List Decl) :=
  ds.filterMap fun
    | .struct name fields => some (name, fields)
    | _ => none

theorem structsOf_append (ds es : List Def) : structsOf (ds ++ es) = structsOf ds ++ structsOf es := List.filterMap_append

/-- Whether a struct has the name and the fields that are declared. -/
def IsStruct (R : List Decl → Layout → Prop) (declared : String × List Decl) (st : Struct) : Prop :=
  st.name = declared.1 ∧ ∃ l, st.layout? = some l ∧ R declared.2 l

/-- Whether a signature has the name, the parameters and the locals of a function. -/
def IsFrame (R : List Decl → Layout → Prop) (f : Function) (sig : Signature) : Prop :=
  sig.name = f.name ∧ sig.arity = f.params.length ∧ R (f.params ++ f.locals) sig.frame

/-- Whether the rows of a scope are what they should be by some definitions: the fields of each struct, the globals and the
    frame of each function. -/
structure Rows (R : List Decl → Layout → Prop) (ds : List Def) (s : Scope) : Prop where
  structs : List.Forall₂ (IsStruct R) (structsOf ds) s.types.structs
  distinct : (s.types.structs.map Struct.name).Nodup
  globals : R (globalsOf ds) s.globals
  none_iff : s.globals? = none ↔ globalsOf ds = []
  functions : List.Forall₂ (IsFrame R) (functionsOf ds) s.functions

section

variable {R R' : List Decl → Layout → Prop} {map : MemoryMap} {ds es : List Def} {s s' : Scope}

theorem Rows.imp (h : Rows R ds s) (weaker : ∀ row l, R row l → R' row l) : Rows R' ds s where
  structs := h.structs.imp fun d st hd => by
    obtain ⟨name, l, hl, row⟩ := hd
    exact ⟨name, l, hl, weaker d.2 l row⟩
  distinct := h.distinct
  globals := weaker (globalsOf ds) s.globals h.globals
  none_iff := h.none_iff
  functions := h.functions.imp fun f sig hf => ⟨hf.1, hf.2.1, weaker (f.params ++ f.locals) sig.frame hf.2.2⟩

theorem rows_empty (map : MemoryMap) : Rows (Laid {}) [] { map } where
  structs := .nil
  distinct := List.nodup_nil
  globals := .empty {}
  none_iff := ⟨fun _ => rfl, fun _ => rfl⟩
  functions := .nil

/-- The old table extends one in which a struct is only declared. -/
theorem TypeTable.extends_declare {t u : TypeTable} {name : String} (hd : t.declare name = .ok u) : t.Extends u := by
  obtain ⟨-, rfl⟩ := declare_eq_ok hd
  intro other st l hf hl
  rw [find?] at hf ⊢
  rw [List.find?_append] at hf
  rcases hs : t.structs.find? (·.name = other) with _ | st'
  · rw [hs, Option.none_or] at hf
    rw [List.mem_singleton.1 (List.mem_of_find?_eq_some hf)] at hl
    cases hl
  · rw [hs, Option.some_or] at hf
    exact hs.trans hf

/-- A struct is added with its fields in a row. -/
theorem rows_add_struct (h : Rows (Laid s.types) ds s) (known : s.types.Known ds) {name : String} {fields : List Decl}
    (hd : s.add (.struct name fields) = (s', none)) :
    Rows (Laid s'.types) (ds ++ [.struct name fields]) s' ∧ s'.types.Known (ds ++ [.struct name fields]) := by
  obtain ⟨t, v, h1, h2, rfl⟩ := Scope.add_struct_eq_ok hd
  have old_extends := TypeTable.extends_declare h1
  have extends_old := TypeTable.extends_define h1 h2
  have extends_declared : v.Extends t := fun other st l hf hl => extends_old other st l (old_extends other st l hf hl) hl
  obtain ⟨fresh, -⟩ := TypeTable.declare_eq_ok h1
  obtain ⟨layout, hx, rfl⟩ := TypeTable.define_eq_ok h1 h2
  have fields_laid : Laid t fields layout := laid_extend (.empty t) hx
  have old : Rows (Laid ⟨s.types.structs ++ [⟨name, some layout⟩]⟩) ds s := h.imp fun row l laid => laid.mono extends_old
  have same_globals : globalsOf (ds ++ [.struct name fields]) = globalsOf ds := (globalsOf_append ds _).trans (List.append_nil _)
  have same_functions : functionsOf (ds ++ [.struct name fields]) = functionsOf ds :=
    (functionsOf_append ds _).trans (List.append_nil _)
  refine ⟨⟨?_, ?_, same_globals ▸ old.globals, same_globals ▸ h.none_iff, same_functions ▸ old.functions⟩, ?_⟩
  · rw [structsOf_append]
    exact List.rel_append old.structs (.cons ⟨rfl, layout, rfl, fields_laid.mono extends_declared⟩ .nil)
  · have other : ∀ st ∈ s.types.structs, st.name ≠ name := by simpa [TypeTable.find?] using fresh
    rw [List.map_append]
    refine List.nodup_append.2 ⟨h.distinct, List.nodup_singleton _, ?_⟩
    intro a ha b hb
    obtain ⟨st, hst, rfl⟩ := List.mem_map.1 ha
    rw [List.mem_singleton.1 hb]
    exact other st hst
  · exact known.add ((old_extends.known known).haveBytes fields_laid.total)

/-- Every definition that is added keeps all rows laid and struct sizes what they should be. -/
theorem rows_add (h : Rows (Laid s.types) ds s) (known : s.types.Known ds) {d : Def} (hd : s.add d = (s', none)) :
    Rows (Laid s'.types) (ds ++ [d]) s' ∧ s'.types.Known (ds ++ [d]) := by
  rcases d with ⟨name, fields⟩ | g | f
  · exact rows_add_struct h known hd
  · obtain ⟨row, hx, rfl⟩ := Scope.add_global_eq_ok hd
    have same_structs : structsOf (ds ++ [.global g]) = structsOf ds := (structsOf_append ds _).trans (List.append_nil _)
    have same_functions : functionsOf (ds ++ [.global g]) = functionsOf ds := (functionsOf_append ds _).trans (List.append_nil _)
    refine ⟨⟨same_structs ▸ h.structs, h.distinct, ?_, ?_, same_functions ▸ h.functions⟩, known.mono (List.subset_append_left ds _)⟩
    · rw [globalsOf_append]
      exact laid_extend h.globals hx
    · rw [globalsOf_append]
      exact ⟨nofun, fun none_left => absurd none_left (List.append_ne_nil_of_right_ne_nil _ (List.cons_ne_nil g []))⟩
  · obtain ⟨sig, hs, rfl⟩ := Scope.add_function_eq_ok hd
    obtain ⟨name, -, frame, arity⟩ := Scope.signature_eq_ok hs
    have same_structs : structsOf (ds ++ [.function f]) = structsOf ds := (structsOf_append ds _).trans (List.append_nil _)
    have same_globals : globalsOf (ds ++ [.function f]) = globalsOf ds := (globalsOf_append ds _).trans (List.append_nil _)
    have laid : Laid s.types ([] ++ (f.params ++ f.locals)) sig.frame := laid_extend (.empty s.types) frame
    refine ⟨⟨same_structs ▸ h.structs, h.distinct, same_globals ▸ h.globals, same_globals ▸ h.none_iff, ?_⟩,
      known.mono (List.subset_append_left ds _)⟩
    rw [functionsOf_append]
    exact List.rel_append h.functions (.cons ⟨name, arity, laid⟩ .nil)

theorem rows_addAll (h : Rows (Laid s.types) ds s) (known : s.types.Known ds) (he : s.addAll es = (s', none)) :
    Rows (Laid s'.types) (ds ++ es) s' ∧ s'.types.Known (ds ++ es) := by
  induction es generalizing ds s with
  | nil =>
    cases he
    rw [List.append_nil]
    exact ⟨h, known⟩
  | cons d es ih =>
    rw [Scope.addAll] at he
    split at he
    · cases he
    · next next hd =>
      obtain ⟨h, known⟩ := rows_add h known hd
      rw [List.append_cons]
      exact ih h known he

/-- The rows of the scope of a program are laid, and its structs have the sizes that its definitions give them. -/
theorem rows_of_ofProgram {p : Program} (h : Scope.ofProgram map p = .ok s) :
    Rows (Laid s.types) p.defs s ∧ s.types.Known p.defs := by
  have no_structs : ({} : TypeTable).Known [] := fun name st l hf _ => by cases hf
  exact rows_addAll (rows_empty map) no_structs (Scope.ofProgram_eq_ok_iff.1 h).1

theorem exists_of_forall₂ {α β : Type} {S : α → β → Prop} {xs : List α} {ys : List β} (h : List.Forall₂ S xs ys) {x : α}
    (hx : x ∈ xs) : ∃ y ∈ ys, S x y := by
  induction h with
  | nil => cases hx
  | cons first _ ih =>
    rcases List.mem_cons.1 hx with rfl | hx
    · exact ⟨_, List.mem_cons_self, first⟩
    · obtain ⟨y, hy, later⟩ := ih hx
      exact ⟨y, List.mem_cons_of_mem _ hy, later⟩

/-- The structs of the definitions are found with their totals. -/
theorem Rows.totals (h : Rows (Laid s.types) ds s) : s.types.Totals ds := by
  intro name fields defined
  have listed : (name, fields) ∈ structsOf ds := List.mem_filterMap.2 ⟨_, defined, rfl⟩
  obtain ⟨st, hst, same, l, hl, laid⟩ := exists_of_forall₂ h.structs listed
  refine ⟨st, l, ?_, hl, laid.total⟩
  rcases hf : s.types.find? name with _ | st'
  · exact absurd same (by simpa using List.find?_eq_none.1 hf st hst)
  · have named : st'.name = name := by simpa using List.find?_some hf
    rw [List.inj_on_of_nodup_map h.distinct (List.mem_of_find?_eq_some hf) hst (named.trans same.symm)]

/-- Every row of the definitions has a total that fits the address space. -/
theorem Rows.total_lt (h : Rows (Laid s.types) ds s) {row : List Decl} (hr : RowOf ds row) :
    ∃ n, s.types.total row = .ok n ∧ n < addressSpace := by
  rcases hr with @⟨name, _, defined⟩ | - | @⟨f, defined⟩
  · have listed : (name, row) ∈ structsOf ds := List.mem_filterMap.2 ⟨_, defined, rfl⟩
    obtain ⟨-, -, -, l, -, laid⟩ := exists_of_forall₂ h.structs listed
    exact ⟨l.size, laid.total, laid.bounded⟩
  · exact ⟨s.globals.size, h.globals.total, h.globals.bounded⟩
  · have listed : f ∈ functionsOf ds := List.mem_filterMap.2 ⟨_, defined, rfl⟩
    obtain ⟨sig, -, -, -, laid⟩ := exists_of_forall₂ h.functions listed
    exact ⟨sig.frame.size, laid.total, laid.bounded⟩

/-- No program that overflows has a scope. -/
theorem Rows.not_overflows (h : Rows (Laid s.types) ds s) : ¬ Overflows ds := by
  rintro ⟨row, hr, large⟩
  obtain ⟨n, total, small⟩ := h.total_lt hr
  rcases large with ⟨k, m, bytes, large⟩ | ⟨d, hd, elem, length, m, inside, bytes, large⟩
  · obtain ⟨m', total', le⟩ := TypeTable.total_take total k
    have same := TypeTable.total_unique h.totals bytes total'
    omega
  · obtain ⟨size, hs⟩ := TypeTable.sizeOf_of_total total hd
    obtain ⟨m', he, small'⟩ := TypeTable.sizeOf_arrays hs inside
    rw [TypeTable.sizeOf_unique h.totals bytes he] at large
    omega

end

/-! ## What rows look like -/

/-- Whether a layout has variables as declared, with different names, one after the other from its start to its end. -/
structure Contiguous (t : TypeTable) (row : List Decl) (l : Layout) : Prop where
  declared : l.vars.map Var.decl = row
  distinct : (l.vars.map Var.name).Nodup
  sized : ∀ v ∈ l.vars, ∃ n, t.sizeOf v.ty = .ok n
  first : ∀ v : Var, l.vars[0]? = some v → v.offset = 0
  next : ∀ i (u v : Var) n, l.vars[i]? = some u → l.vars[i + 1]? = some v → t.sizeOf u.ty = .ok n → v.offset = u.offset + n
  total : t.total row = .ok l.size
  bounded : l.size < addressSpace
  offsets : ∀ v ∈ l.vars, v.offset % 4 = 0
  sizes : ∀ v ∈ l.vars, ∀ n, t.sizeOf v.ty = .ok n → n % 4 = 0
  aligned : l.size % 4 = 0
  apart : ∀ (i j : Nat) (u v : Var) n, i < j → l.vars[i]? = some u → l.vars[j]? = some v → t.sizeOf u.ty = .ok n →
    u.offset + n ≤ v.offset
  inside : ∀ v ∈ l.vars, ∀ n, t.sizeOf v.ty = .ok n → v.offset + n ≤ l.size

/-- Whether `Signature.locals?` gives all bytes of the variables behind the parameters, and nothing if there are none. -/
structure LocalsCovered (t : TypeTable) (sig : Signature) : Prop where
  range : ∀ start length, sig.locals? = some (start, length) →
    ∀ k, Covers t (sig.frame.vars.drop sig.arity) k ↔ start ≤ k ∧ k < start + length
  none_iff : sig.locals? = none ↔ ∀ k, ¬ Covers t (sig.frame.vars.drop sig.arity) k

section

variable {t : TypeTable} {start stop : Nat} {vars : List Var} {row : List Decl} {l : Layout}

theorem Filled.toRow (h : Filled t start vars stop) (aligned : t.Aligned) (hs : start % 4 = 0) : Row start vars stop := by
  induction vars generalizing start with
  | nil => exact h
  | cons v vars ih =>
    obtain ⟨hv, n, hn, rest⟩ := h
    have next_aligned : (start + n) % 4 = 0 := by
      have size := aligned.sizeOf hn
      omega
    exact ⟨hv, start + n, Nat.le_add_right start n, next_aligned, fun word => by rw [TypeTable.sizeOf_isWord hn word],
      ih rest next_aligned⟩

theorem Laid.contiguous (h : Laid t row l) (aligned : t.Aligned) : Contiguous t row l where
  declared := h.declared
  distinct := h.distinct
  sized := by
    intro v hv
    obtain ⟨i, hi⟩ := List.mem_iff_getElem?.1 hv
    obtain ⟨n, hn, -⟩ := h.filled.split_at hi
    exact ⟨n, hn⟩
  first := by
    intro v hv
    obtain ⟨-, -, before, -⟩ := h.filled.split_at hv
    exact before
  next := by
    intro i u v n hu hv hn
    obtain ⟨m, hm, -, after⟩ := h.filled.split_at hu
    obtain rfl := Except.ok.inj (hn.symm.trans hm)
    obtain ⟨lt, rfl⟩ := List.getElem?_eq_some_iff.1 hv
    rw [List.drop_eq_getElem_cons lt] at after
    exact after.1
  total := h.total
  bounded := h.bounded
  offsets := by
    intro v hv
    obtain ⟨i, hi⟩ := List.mem_iff_getElem?.1 hv
    obtain ⟨-, -, before, -⟩ := h.filled.split_at hi
    exact (before.toRow aligned rfl).aligned rfl
  sizes := fun v _ n hn => aligned.sizeOf hn
  aligned := (h.filled.toRow aligned rfl).aligned rfl
  apart := by
    intro i j u v n lt hu hv hn
    obtain ⟨m, hm, -, after⟩ := h.filled.split_at hu
    obtain rfl := Except.ok.inj (hn.symm.trans hm)
    have later : (l.vars.drop (i + 1))[j - (i + 1)]? = some v := by
      rw [List.getElem?_drop, Nat.add_sub_cancel' lt, hv]
    obtain ⟨-, -, between, -⟩ := after.split_at later
    exact between.le
  inside := by
    intro v hv n hn
    obtain ⟨i, hi⟩ := List.mem_iff_getElem?.1 hv
    obtain ⟨m, hm, -, after⟩ := h.filled.split_at hi
    obtain rfl := Except.ok.inj (hn.symm.trans hm)
    exact after.le

/-- The locals are the stretch from the first variable behind the parameters to the end of the frame. -/
theorem locals?_of_filled {sig : Signature} (h : Filled t 0 sig.frame.vars sig.frame.size) :
    ∃ start, Filled t start (sig.frame.vars.drop sig.arity) sig.frame.size ∧
      sig.locals? = if start < sig.frame.size then some (start, sig.frame.size - start) else none := by
  rw [← List.take_append_drop sig.arity sig.frame.vars] at h
  obtain ⟨start, -, after⟩ := Filled.append_iff.1 h
  refine ⟨start, after, ?_⟩
  rw [Signature.locals?]
  rcases hv : sig.frame.vars[sig.arity]? with _ | v
  · rw [List.drop_eq_nil_of_le (List.getElem?_eq_none_iff.1 hv)] at after
    rw [Option.bind_none, if_neg (Nat.not_lt_of_ge (Nat.le_of_eq after))]
  · obtain ⟨lt, rfl⟩ := List.getElem?_eq_some_iff.1 hv
    rw [List.drop_eq_getElem_cons lt] at after
    rw [Option.bind_some, after.1]

theorem localsCovered_of_filled {sig : Signature} (h : Filled t 0 sig.frame.vars sig.frame.size) : LocalsCovered t sig := by
  obtain ⟨start, filled, locals⟩ := locals?_of_filled h
  constructor
  · intro first length found k
    rw [locals] at found
    split at found
    · cases found
      rw [filled.covers_iff]
      omega
    · cases found
  · rw [locals]
    constructor
    · intro none_left k covered
      have bytes := (filled.covers_iff k).1 covered
      rw [if_pos (by omega)] at none_left
      cases none_left
    · intro none_covered
      refine if_neg fun some_bytes => none_covered start ((filled.covers_iff start).2 ⟨Nat.le_refl start, some_bytes⟩)

end

/-- In the scope of a program all fields of structs, all globals and all variables of functions lie one after the other, as many
    bytes each as the definitions give its type, and the locals of a function are the bytes behind its parameters.  A
    program in which a sum or a product of sizes goes past the address space has no scope. -/
theorem layouts_contiguous (map : MemoryMap) (p : Program) :
    (∀ scope, Scope.ofProgram map p = .ok scope →
      Rows (Contiguous scope.types) p.defs scope ∧
      (∀ sig ∈ scope.functions, LocalsCovered scope.types sig) ∧
      (∀ ty n, scope.types.sizeOf ty = .ok n → HasBytes p.defs ty n) ∧
      ∀ elem length n, scope.types.sizeOf (.array elem length) = .ok n →
        ∃ each, scope.types.sizeOf elem = .ok each ∧ n = each * length) ∧
    (Overflows p.defs → ∃ e, Scope.ofProgram map p = .error e) := by
  constructor
  · intro scope h
    obtain ⟨rows, known⟩ := rows_of_ofProgram h
    have aligned := (collected_of_ofProgram h).1.aligned
    refine ⟨rows.imp fun row l laid => laid.contiguous aligned, ?_, fun ty n hs => known.hasBytes hs, ?_⟩
    · intro sig hsig
      have flipped : List.Forall₂ (flip (IsFrame (Laid scope.types))) scope.functions (functionsOf p.defs) :=
        List.Forall₂.flip rows.functions
      obtain ⟨f, -, -, -, laid⟩ := exists_of_forall₂ flipped hsig
      exact localsCovered_of_filled laid.filled
    · intro elem length n hs
      obtain ⟨each, he, -, -, product⟩ := TypeTable.sizeOf_array_eq_ok_iff.1 hs
      exact ⟨each, he, product⟩
  · intro large
    rcases h : Scope.ofProgram map p with e | scope
    · exact ⟨e, rfl⟩
    · exact absurd large (rows_of_ofProgram h).1.not_overflows

/-- A struct that points at itself and has a field without bytes, and functions with locals and with none. -/
def nodeProgram : Program := ⟨[
  .struct "node" [⟨.scalar .int, "value"⟩, ⟨.pointer (.struct "node"), "next"⟩, ⟨.array (.scalar .int) 0, "none"⟩,
    ⟨.array (.scalar .char) 3, "tag"⟩],
  .global ⟨.array (.struct "node") 2, "nodes"⟩,
  .global ⟨.scalar .bool, "ready"⟩,
  .function ⟨"add", some (.scalar .int), [⟨.scalar .int, "x"⟩, ⟨.pointer (.struct "node"), "n"⟩],
    [⟨.array (.array (.scalar .int) 2) 3, "grid"⟩, ⟨.scalar .int, "t"⟩], []⟩,
  .function ⟨"main", none, [], [], []⟩]⟩

/-- Two globals that take half of the address space each. -/
def wideProgram : Program := ⟨[
  .global ⟨.array (.scalar .int) 0x20000000, "a"⟩,
  .global ⟨.array (.scalar .int) 0x20000000, "b"⟩,
  .function ⟨"main", none, [], [], []⟩]⟩

/-- The bytes of a node are 20, its last field lies at 8, and the locals of `add` are the 28 bytes from 8 on.  The two wide
    globals are refused. -/
theorem layouts_contiguous_nodes :
    (∃ scope, Scope.ofProgram {} nodeProgram = .ok scope ∧ Rows (Contiguous scope.types) nodeProgram.defs scope ∧
      scope.types.sizeOf (.struct "node") = .ok 20 ∧
      scope.globals.vars = [⟨"nodes", .array (.struct "node") 2, 0⟩, ⟨"ready", .scalar .bool, 40⟩] ∧
      scope.functions.map Signature.locals? = [some (8, 28), none]) ∧
    Overflows wideProgram.defs ∧ ∃ e, Scope.ofProgram {} wideProgram = .error e := by
  have half : HasBytes wideProgram.defs (.array (.scalar .int) 0x20000000) 0x80000000 := .array .scalar
  have both : HaveBytes wideProgram.defs ((globalsOf wideProgram.defs).take 2) (0x80000000 + (0x80000000 + 0)) :=
    .cons half (.cons half .nil)
  have wide : Overflows wideProgram.defs := ⟨globalsOf wideProgram.defs, .globals, .inl ⟨2, _, both, Nat.le_refl _⟩⟩
  refine ⟨?_, wide, (layouts_contiguous {} wideProgram).2 wide⟩
  refine ⟨_, rfl, ((layouts_contiguous {} nodeProgram).1 _ rfl).1, rfl, rfl, rfl⟩

end M32.Lang
