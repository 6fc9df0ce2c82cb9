/-
  Rows of variables without gaps.

  1. `Row start vars stop` says that variables fill a stretch of words: each starts where the one before it ends, and one that
     fills a register takes four bytes.  `TypeTable.extend` makes such rows, as all sizes are multiples of four
     (`TypeTable.Aligned`).
  2. `Signature.Framed`: the frame of a function is a row.  If all parameters fill a register, parameter `i` lies at `4 * i`
     and the locals fill the rest (`Framed.offset_param`, `Framed.locals?_eq`).
-/
import M32.Lang.Scope

namespace M32.Lang

/-! ## Rows -/

/-- Whether variables fill a stretch of words. -/
def Row (start : Nat) : List Var → Nat → Prop
  | [], stop => stop = start
  | v :: vars, stop => v.offset = start ∧ ∃ next, start ≤ next ∧ next % 4 = 0 ∧ (v.ty.isWord = true → next = start + 4) ∧
    Row next vars stop

namespace Row

variable {start stop : Nat} {vars : List Var} {v : Var}

theorem le (h : Row start vars stop) : start ≤ stop := by
  induction vars generalizing start with
  | nil => exact Nat.le_of_eq h.symm
  | cons v vars ih =>
    obtain ⟨-, next, le, -, -, rest⟩ := h
    exact Nat.le_trans le (ih rest)

theorem aligned (h : Row start vars stop) (hs : start % 4 = 0) : stop % 4 = 0 := by
  induction vars generalizing start with
  | nil => exact h ▸ hs
  | cons v vars ih =>
    obtain ⟨-, next, -, aligned, -, rest⟩ := h
    exact ih rest aligned

/-- A variable at the end of a row. -/
theorem concat (h : Row start vars stop) {next : Nat} (hv : v.offset = stop) (le : stop ≤ next) (aligned : next % 4 = 0)
    (word : v.ty.isWord = true → next = stop + 4) : Row start (vars ++ [v]) next := by
  induction vars generalizing start with
  | nil =>
    cases h
    exact ⟨hv, next, le, aligned, word, rfl⟩
  | cons u vars ih =>
    obtain ⟨hu, middle, le', aligned', word', rest⟩ := h
    exact ⟨hu, middle, le', aligned', word', ih rest⟩

/-- Variables that fill a register lie at multiples of four, and the others follow them. -/
theorem words {n : Nat} (h : Row start vars stop) (hw : ∀ v ∈ vars.take n, v.ty.isWord = true) (hn : n ≤ vars.length) :
    (∀ i v, i < n → vars[i]? = some v → v.offset = start + 4 * i) ∧ Row (start + 4 * n) (vars.drop n) stop := by
  induction n generalizing start vars with
  | zero => exact ⟨fun i v hi => absurd hi (Nat.not_lt_zero i), h⟩
  | succ n ih =>
    cases vars with
    | nil => exact absurd hn (Nat.not_succ_le_zero n)
    | cons u vars =>
      obtain ⟨hu, next, -, -, word, rest⟩ := h
      have first : u.ty.isWord = true := hw u (by simp)
      rw [word first] at rest
      obtain ⟨offsets, rest⟩ := ih rest (fun v hv => hw v (by simp [hv])) (by simpa using hn)
      refine ⟨fun i v hi hv => ?_, ?_⟩
      · cases i with
        | zero =>
          cases hv
          exact hu
        | succ i =>
          rw [offsets i v (by omega) hv]
          omega
      · rwa [show start + 4 + 4 * n = start + 4 * (n + 1) by omega] at rest

end Row

/-! ## Sizes that are multiples of four -/

namespace TypeTable

variable {t t' : TypeTable}

/-- Whether the sizes of all structs are multiples of four. -/
def Aligned (t : TypeTable) : Prop := ∀ s ∈ t.structs, ∀ l, s.layout? = some l → l.size % 4 = 0

theorem sizeOf_array_eq_ok_iff {elem : Ty} {length size : Nat} : t.sizeOf (.array elem length) = .ok size ↔
    ∃ n, t.sizeOf elem = .ok n ∧ length < addressSpace ∧ n * length < addressSpace ∧ size = n * length := by
  rw [sizeOf]
  rcases t.sizeOf elem with e | n
  · exact ⟨nofun, by rintro ⟨_, ⟨⟩, _⟩⟩
  · simp only [bind, Except.bind, Bool.and_eq_true, decide_eq_true_iff]
    split
    · next fits =>
      constructor
      · rintro ⟨⟩
        exact ⟨n, rfl, fits.1, fits.2, rfl⟩
      · rintro ⟨_, ⟨⟩, _, _, rfl⟩
        rfl
    · next full => exact ⟨nofun, by rintro ⟨_, ⟨⟩, short, small, _⟩; exact absurd ⟨short, small⟩ full⟩

theorem sizeOf_struct_eq_ok_iff {name : String} {size : Nat} : t.sizeOf (.struct name) = .ok size ↔
    ∃ s l, t.find? name = some s ∧ s.layout? = some l ∧ size = l.size := by
  rw [sizeOf]
  rcases t.find? name with _ | s
  · exact ⟨nofun, by rintro ⟨_, _, ⟨⟩, _⟩⟩
  · rcases hl : s.layout? with _ | l
    · simp only [hl]
      exact ⟨nofun, by rintro ⟨_, _, ⟨⟩, some_layout, _⟩; rw [hl] at some_layout; cases some_layout⟩
    · simp only [hl]
      constructor
      · rintro ⟨⟩
        exact ⟨s, l, rfl, hl, rfl⟩
      · rintro ⟨_, _, ⟨⟩, same, rfl⟩
        rw [hl] at same
        cases same
        rfl

theorem Aligned.sizeOf (h : t.Aligned) {ty : Ty} {size : Nat} (hs : t.sizeOf ty = .ok size) : size % 4 = 0 := by
  induction ty generalizing size with
  | scalar s => cases hs; rfl
  | pointer target => cases hs; rfl
  | array elem length ih =>
    obtain ⟨n, he, -, -, rfl⟩ := sizeOf_array_eq_ok_iff.1 hs
    rw [Nat.mul_mod, ih he, Nat.zero_mul, Nat.zero_mod]
  | struct name =>
    obtain ⟨s, l, hf, hl, rfl⟩ := sizeOf_struct_eq_ok_iff.1 hs
    exact h s (List.mem_of_find?_eq_some hf) l hl

theorem push_eq_ok {l l' : Layout} {d : Decl} {size : Nat} {whole : String} (h : l.push d size whole = .ok l') :
    l.find? d.name = none ∧ l.size + size < addressSpace ∧ l' = ⟨l.vars ++ [⟨d.name, d.ty, l.size⟩], l.size + size⟩ := by
  unfold Layout.push at h
  split at h
  · cases h
  · next fresh =>
    split at h
    · next fits => cases h; exact ⟨Option.not_isSome_iff_eq_none.1 fresh, fits, rfl⟩
    · cases h

/-- The first of some variables is added to the end of a row, under a name that is new there, and then the others. -/
theorem extend_cons_eq_ok {whole : Decl → String} {l l' : Layout} {d : Decl} {ds : List Decl}
    (h : t.extend whole l (d :: ds) = .ok l') :
    ∃ size, t.sizeOf d.ty = .ok size ∧ l.find? d.name = none ∧ l.size + size < addressSpace ∧
      t.extend whole ⟨l.vars ++ [⟨d.name, d.ty, l.size⟩], l.size + size⟩ ds = .ok l' := by
  rw [extend] at h
  cases hc : t.check d.ty with
  | error e => rw [hc] at h; cases h
  | ok u =>
    cases hs : t.sizeOf d.ty with
    | error e => rw [hc, hs] at h; cases h
    | ok size =>
      cases hp : l.push d size (whole d) with
      | error e => rw [hc, hs] at h; simp only [bind, Except.bind, hp] at h; cases h
      | ok next =>
        rw [hc, hs] at h
        simp only [bind, Except.bind, hp] at h
        obtain ⟨fresh, fits, rfl⟩ := push_eq_ok hp
        exact ⟨size, rfl, fresh, fits, h⟩

theorem sizeOf_isWord {ty : Ty} {size : Nat} (h : t.sizeOf ty = .ok size) (hw : ty.isWord = true) : size = 4 := by
  cases ty with
  | scalar s => cases h; rfl
  | pointer target => cases h; rfl
  | array elem length => cases hw
  | struct name => cases hw

/-- What is added to a row makes a row, with as many variables more as are added. -/
theorem row_extend {whole : Decl → String} {l l' : Layout} {ds : List Decl} (h : t.Aligned) (hl : Row 0 l.vars l.size)
    (hx : t.extend whole l ds = .ok l') : Row 0 l'.vars l'.size ∧ l'.vars.length = l.vars.length + ds.length := by
  induction ds generalizing l with
  | nil =>
    cases hx
    exact ⟨hl, rfl⟩
  | cons d ds ih =>
    obtain ⟨size, hs, -, -, hx⟩ := extend_cons_eq_ok hx
    have aligned : (l.size + size) % 4 = 0 := by
      have before := hl.aligned rfl
      have added := h.sizeOf hs
      omega
    obtain ⟨row, length⟩ := ih (hl.concat rfl (Nat.le_add_right _ _) aligned fun hw => by rw [sizeOf_isWord hs hw]) hx
    refine ⟨row, ?_⟩
    rw [length, List.length_append, List.length_singleton, List.length_cons]
    omega

theorem Aligned.declare {name : String} (h : t.Aligned) (hd : t.declare name = .ok t') : t'.Aligned := by
  unfold TypeTable.declare at hd
  split at hd
  · cases hd
  · cases hd
    intro s hs l hl
    rcases List.mem_append.1 hs with hs | hs
    · exact h s hs l hl
    · rw [List.mem_singleton.1 hs] at hl
      cases hl

theorem Aligned.define {name : String} {fields : List Decl} (h : t.Aligned) (hd : t.define name fields = .ok t') :
    t'.Aligned := by
  unfold TypeTable.define at hd
  cases hx : t.extend (fun _ => (Ty.struct name).text) {} fields with
  | error e => rw [hx] at hd; cases hd
  | ok layout =>
    rw [hx] at hd
    cases hd
    intro s hs l hl
    obtain ⟨u, hu, rfl⟩ := List.mem_map.1 hs
    split at hl
    · cases hl
      exact (row_extend (l := {}) h rfl hx).1.aligned rfl
    · exact h u hu l hl

end TypeTable

/-! ## Frames -/

/-- Whether the frame of a function is a row that starts with its parameters. -/
structure Signature.Framed (f : Signature) : Prop where
  row : Row 0 f.frame.vars f.frame.size
  arity : f.arity ≤ f.frame.vars.length

namespace Signature.Framed

variable {f : Signature}

theorem aligned (h : f.Framed) : f.frame.size % 4 = 0 := h.row.aligned rfl

theorem length_params (h : f.Framed) : f.params.length = f.arity := by
  rw [Signature.params, List.length_take]
  exact Nat.min_eq_left h.arity

theorem offset_param (h : f.Framed) (hw : ∀ v ∈ f.params, v.ty.isWord = true) {i : Nat} {v : Var}
    (hv : f.params[i]? = some v) : v.offset = 4 * i := by
  obtain ⟨offsets, -⟩ := h.row.words hw h.arity
  have lt : i < f.params.length := (List.getElem?_eq_some_iff.1 hv).1
  rw [h.length_params] at lt
  rw [Signature.params, List.getElem?_take_of_lt lt] at hv
  rw [offsets i v lt hv, Nat.zero_add]

theorem arity_le (h : f.Framed) (hw : ∀ v ∈ f.params, v.ty.isWord = true) : 4 * f.arity ≤ f.frame.size := by
  obtain ⟨-, rest⟩ := h.row.words hw h.arity
  have := rest.le
  omega

/-- The locals fill the rest of the frame. -/
theorem locals?_eq (h : f.Framed) (hw : ∀ v ∈ f.params, v.ty.isWord = true) :
    f.locals? = if 4 * f.arity < f.frame.size then some (4 * f.arity, f.frame.size - 4 * f.arity) else none := by
  obtain ⟨-, rest⟩ := h.row.words hw h.arity
  rw [Nat.zero_add] at rest
  rw [Signature.locals?]
  cases hv : f.frame.vars[f.arity]? with
  | none =>
    have all : f.frame.vars.drop f.arity = [] := List.drop_eq_nil_of_le (List.getElem?_eq_none_iff.1 hv)
    rw [all] at rest
    rw [Option.bind_none, if_neg (by rw [show f.frame.size = 4 * f.arity from rest]; omega)]
  | some v =>
    have some_vars : f.frame.vars.drop f.arity = v :: f.frame.vars.drop (f.arity + 1) := by
      obtain ⟨lt, rfl⟩ := List.getElem?_eq_some_iff.1 hv
      exact List.drop_eq_getElem_cons lt
    rw [some_vars] at rest
    rw [Option.bind_some, rest.1]

end Signature.Framed

end M32.Lang
