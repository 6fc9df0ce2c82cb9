/-
  How many bytes types have by the definitions of a program.

  1. `HasBytes` gives types their sizes in unbounded numbers, by the definitions alone.  `Overflows` says that such a size
     is too large somewhere in the rows of variables that the definitions make.
  2. A type table that knows the structs of some definitions gives types no other sizes than `HasBytes` does (`Known.hasBytes`,
     `sizeOf_unique`).
-/
import M32.Proofs.Lang.Scope.Globals

namespace M32.Lang

/-! ## Sizes without a limit -/

mutual

/-- How many bytes a type has by some definitions, be they ever so many. -/
inductive HasBytes (ds : List Def) : Ty → Nat → Prop
  | scalar {s : Scalar} : HasBytes ds (.scalar s) 4
  | pointer {target : Ty} : HasBytes ds (.pointer target) 4
  | array {elem : Ty} {length n : Nat} (each : HasBytes ds elem n) : HasBytes ds (.array elem length) (n * length)
  | struct {name : String} {fields : List Decl} {n : Nat} (defined : .struct name fields ∈ ds) (all : HaveBytes ds fields n) :
      HasBytes ds (.struct name) n

/-- How many bytes some variables have together. -/
inductive HaveBytes (ds : List Def) : List Decl → Nat → Prop
  | nil : HaveBytes ds [] 0
  | cons {d : Decl} {rest : List Decl} {n m : Nat} (first : HasBytes ds d.ty n) (others : HaveBytes ds rest m) :
      HaveBytes ds (d :: rest) (n + m)

end

mutual

theorem HasBytes.mono {ds es : List Def} (sub : ds ⊆ es) {ty : Ty} {n : Nat} : HasBytes ds ty n → HasBytes es ty n
  | .scalar => .scalar
  | .pointer => .pointer
  | .array each => .array (each.mono sub)
  | .struct defined all => .struct (sub defined) (all.mono sub)

theorem HaveBytes.mono {ds es : List Def} (sub : ds ⊆ es) {row : List Decl} {n : Nat} : HaveBytes ds row n → HaveBytes es row n
  | .nil => .nil
  | .cons first others => .cons (first.mono sub) (others.mono sub)

end

/-- The element types and lengths of the arrays that a value of a type consists of. -/
def Ty.arrays : Ty → List (Ty × Nat)
  | .array elem length => (elem, length) :: elem.arrays
  | _ => []

/-- The rows of variables that some definitions make. -/
inductive RowOf (ds : List Def) : List Decl → Prop
  | fields {name : String} {fields : List Decl} (defined : .struct name fields ∈ ds) : RowOf ds fields
  | globals : RowOf ds (globalsOf ds)
  | frame {f : Function} (defined : .function f ∈ ds) : RowOf ds (f.params ++ f.locals)

/-- Whether the first variables of a row, or the elements of an array in it, have more bytes than there are addresses. -/
def Overflows (ds : List Def) : Prop :=
  ∃ row, RowOf ds row ∧ ((∃ k n, HaveBytes ds (row.take k) n ∧ addressSpace ≤ n) ∨
    ∃ d ∈ row, ∃ elem length n, (elem, length) ∈ d.ty.arrays ∧ HasBytes ds elem n ∧ addressSpace ≤ n * length)

namespace TypeTable

variable {t u : TypeTable} {ds : List Def}

/-- Whether the sizes of structs are those that some definitions give them. -/
def Known (ds : List Def) (t : TypeTable) : Prop :=
  ∀ name s l, t.find? name = some s → s.layout? = some l → HasBytes ds (.struct name) l.size

theorem Known.hasBytes (h : t.Known ds) {ty : Ty} {n : Nat} (hs : t.sizeOf ty = .ok n) : HasBytes ds ty n := by
  induction ty generalizing n with
  | scalar s => cases hs; exact .scalar
  | pointer target => cases hs; exact .pointer
  | array elem length ih =>
    obtain ⟨m, he, -, -, rfl⟩ := sizeOf_array_eq_ok_iff.1 hs
    exact .array (ih he)
  | struct name =>
    obtain ⟨s, l, hf, hl, rfl⟩ := sizeOf_struct_eq_ok_iff.1 hs
    exact h name s l hf hl

theorem Known.haveBytes (h : t.Known ds) {row : List Decl} {n : Nat} (ht : t.total row = .ok n) : HaveBytes ds row n := by
  induction row generalizing n with
  | nil => cases ht; exact .nil
  | cons d row ih =>
    obtain ⟨size, rest, hs, hr, rfl⟩ := total_cons_eq_ok_iff.1 ht
    exact .cons (h.hasBytes hs) (ih hr)

theorem Known.mono (h : t.Known ds) {es : List Def} (sub : ds ⊆ es) : t.Known es :=
  fun name s l hf hl => (h name s l hf hl).mono sub

/-- One more struct, with as many bytes as its fields have. -/
theorem Known.add (h : t.Known ds) {name : String} {fields : List Decl} {l : Layout} (all : HaveBytes ds fields l.size) :
    Known (ds ++ [.struct name fields]) ⟨t.structs ++ [⟨name, some l⟩]⟩ := by
  have more := List.subset_append_left ds [.struct name fields]
  intro other st l' hf hl
  rw [find?, List.find?_append] at hf
  rcases hs : t.structs.find? (·.name = other) with _ | st'
  · rw [hs, Option.none_or] at hf
    obtain rfl := List.mem_singleton.1 (List.mem_of_find?_eq_some hf)
    obtain rfl : name = other := by simpa using List.find?_some hf
    cases hl
    exact .struct (List.mem_append_right ds (List.mem_singleton_self _)) (all.mono more)
  · rw [hs, Option.some_or] at hf
    cases hf
    exact h.mono more other st l' hs hl

/-- A table knows no less than one that it extends. -/
theorem Extends.known (h : u.Extends t) (hu : u.Known ds) : t.Known ds :=
  fun name s l hf hl => hu name s l (h name s l hf hl) hl

/-- The rows of the structs of some definitions are in a table, with the sizes that their variables have. -/
def Totals (t : TypeTable) (ds : List Def) : Prop :=
  ∀ name fields, .struct name fields ∈ ds → ∃ s l, t.find? name = some s ∧ s.layout? = some l ∧ t.total fields = .ok l.size

mutual

theorem sizeOf_unique (h : t.Totals ds) {ty : Ty} {n m : Nat} : HasBytes ds ty n → t.sizeOf ty = .ok m → n = m
  | .scalar, hs => by cases hs; rfl
  | .pointer, hs => by cases hs; rfl
  | .array each, hs => by
    obtain ⟨k, he, -, -, rfl⟩ := sizeOf_array_eq_ok_iff.1 hs
    rw [sizeOf_unique h each he]
  | .struct defined all, hs => by
    obtain ⟨s, l, hf, hl, rfl⟩ := sizeOf_struct_eq_ok_iff.1 hs
    obtain ⟨s', l', hf', hl', total⟩ := h _ _ defined
    obtain rfl := Option.some.inj (hf.symm.trans hf')
    obtain rfl := Option.some.inj (hl.symm.trans hl')
    exact total_unique h all total

theorem total_unique (h : t.Totals ds) {row : List Decl} {n m : Nat} : HaveBytes ds row n → t.total row = .ok m → n = m
  | .nil, ht => by cases ht; rfl
  | .cons first others, ht => by
    obtain ⟨size, rest, hs, hr, rfl⟩ := total_cons_eq_ok_iff.1 ht
    rw [sizeOf_unique h first hs, total_unique h others hr]

end

/-- With a type, the elements of its arrays have sizes, and no array is too large. -/
theorem sizeOf_arrays {ty : Ty} {n : Nat} (hs : t.sizeOf ty = .ok n) {elem : Ty} {length : Nat} (inside : (elem, length) ∈ ty.arrays) :
    ∃ m, t.sizeOf elem = .ok m ∧ m * length < addressSpace := by
  induction ty generalizing n with
  | scalar s => cases inside
  | pointer target => cases inside
  | struct name => cases inside
  | array inner k ih =>
    obtain ⟨m, he, -, small, rfl⟩ := sizeOf_array_eq_ok_iff.1 hs
    rcases List.mem_cons.1 inside with same | inside
    · cases same
      exact ⟨m, he, small⟩
    · exact ih he inside

/-- The first variables of a row have a total too, which is not larger. -/
theorem total_take {row : List Decl} {n : Nat} (h : t.total row = .ok n) (k : Nat) : ∃ m, t.total (row.take k) = .ok m ∧ m ≤ n := by
  induction k generalizing row n with
  | zero => exact ⟨0, rfl, Nat.zero_le n⟩
  | succ k ih =>
    cases row with
    | nil => exact ⟨n, h, Nat.le_refl n⟩
    | cons d row =>
      obtain ⟨size, rest, hs, hr, rfl⟩ := total_cons_eq_ok_iff.1 h
      obtain ⟨m, hm, le⟩ := ih hr
      exact ⟨size + m, total_cons_eq_ok_iff.2 ⟨size, m, hs, hm, rfl⟩, Nat.add_le_add_left le size⟩

theorem sizeOf_of_total {row : List Decl} {n : Nat} (h : t.total row = .ok n) {d : Decl} (hd : d ∈ row) :
    ∃ size, t.sizeOf d.ty = .ok size := by
  induction row generalizing n with
  | nil => cases hd
  | cons e row ih =>
    obtain ⟨size, rest, hs, hr, rfl⟩ := total_cons_eq_ok_iff.1 h
    rcases List.mem_cons.1 hd with rfl | hd
    · exact ⟨size, hs⟩
    · exact ih hr hd

end TypeTable

end M32.Lang
