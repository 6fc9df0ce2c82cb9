/-
  Code with allotments in it.

  1. A line is tame if none of its instructions sets the heap pointer, or jumps but to a label.  Tame lines are plain if their
     branches lead to one of them or right behind them (`Plain`).
  2. `Tiled` code consists of tame lines and of allotments.  `Outside` are the places in it that no allotment goes around.
  3. `Steady` code is tiled, and all its branches lead outside of allotments.  Loops and branches around steady code are steady
     (`Steady.loop`, `Steady.choice`, `Steady.choices`).
-/
import M32.Proofs.Lang.Code.Limits
import M32.Proofs.Machine.Targets

namespace M32.Lang

open Machine

/-! ## Lines -/

/-- The register that an instruction other than a jump sets, if any.  Which it is does not hang on the state. -/
def settled? : Instr → Option Reg
  | .jump .. => none
  | i => match destination? (.ofSize 0) i with
    | some (.reg r) => some r
    | _ => none

/-- The link of a jump is not the heap pointer. -/
theorem settled?_hp {i : Instr} {s : State} (h : destination? s i = some (.reg .hp)) : settled? i = some .hp := by
  cases i with
  | sw => cases h
  | jump link =>
    cases link with
    | true => exact absurd (Option.some.inj h) (by decide)
    | false => cases h
  | jr | syscall | halt | eret | branchZero | branch | mts => cases h
  | _ =>
    cases h
    rfl

/-- Whether an instruction neither branches nor jumps to an address that it names. -/
def straight : Instr → Bool
  | .branchZero .. | .branch .. | .jump .. => false
  | _ => true

theorem straight_of_settled {i : Instr} {r : Reg} (h : settled? i = some r) : straight i = true := by
  cases i with
  | branchZero | branch | jump => cases h
  | _ => rfl

/-- Whether no instruction of a line sets the heap pointer, or jumps but to the label that the line names. -/
def Line.Tame (l : Line) : Prop := ∀ index, ∀ i ∈ l.instrs index, settled? i ≠ some .hp ∧
  ∀ link w, i = .jump link w → ∃ mnemonic target, l = .jump mnemonic target ∧ w = UInt32.ofNat (index target)

namespace Line.Tame

variable {i : Instr}

theorem instr (h : settled? i ≠ some .hp) (hs : straight i = true) : (Line.instr i).Tame := by
  intro index j hj
  rw [List.mem_singleton.1 hj]
  refine ⟨h, ?_⟩
  rintro _ _ rfl
  cases hs

theorem setting {r : Reg} (h : r ≠ .hp) (names : settled? i = some r) : (Line.instr i).Tame :=
  .instr (fun he => h (Option.some.inj (names.symm.trans he))) (straight_of_settled names)

theorem branch {o : Int} (h : branch? i = some o) : (Line.instr i).Tame := by
  intro index j hj
  rw [List.mem_singleton.1 hj]
  cases i with
  | branchZero | branch => exact ⟨nofun, nofun⟩
  | _ => cases h

end Line.Tame

/-- Tame lines with branches that lead to one of them or right behind them. -/
structure Plain (code : List Line) : Prop where
  tame : ∀ l ∈ code, l.Tame
  inner : ∀ index, ∀ b ∈ branches (instrsOf index code), 0 ≤ b.1 + b.2 ∧ b.1 + b.2 ≤ codeSize code

namespace Plain

theorem instr {i : Instr} (h : settled? i ≠ some .hp) (hs : straight i = true) : Plain [.instr i] where
  tame l hl := by
    rw [List.mem_singleton.1 hl]
    exact .instr h hs
  inner index b hb := by
    obtain ⟨j, hj, ho⟩ := mem_branches_iff.1 hb
    rw [List.mem_singleton.1 (List.mem_of_getElem? hj)] at ho
    cases i with
    | branchZero | branch => cases hs
    | _ => cases ho

theorem setting {i : Instr} {r : Reg} (h : r ≠ .hp) (names : settled? i = some r) : Plain [.instr i] :=
  instr (fun he => h (Option.some.inj (names.symm.trans he))) (straight_of_settled names)

/-- Lines with so many instructions, of which these are the branches. -/
theorem of_branches {code : List Line} (bs : List (Nat × Int)) (n : Nat) (tame : ∀ l ∈ code, l.Tame)
    (found : ∀ index, branches (instrsOf index code) = bs) (size : codeSize code = n)
    (inner : ∀ b ∈ bs, 0 ≤ b.1 + b.2 ∧ b.1 + b.2 ≤ n) : Plain code where
  tame := tame
  inner index b hb := by
    rw [found] at hb
    rw [size]
    exact inner b hb

/-- An instruction with a branch past it. -/
theorem skip {c : Reg} {i : Instr} (h : settled? i ≠ some .hp) (hs : straight i = true) :
    Plain [.instr (.beq c .zero 2), .instr i] := by
  refine .of_branches [(0, 2)] 2 (fun l hl => ?_) (fun index => ?_) rfl (by decide)
  · simp only [List.mem_cons, List.not_mem_nil, or_false] at hl
    rcases hl with rfl | rfl
    · exact .branch rfl
    · exact .instr h hs
  · cases i with
    | branchZero | branch => cases hs
    | _ => rfl

/-- A sequence without jumps sets these registers, one after another. -/
theorem pseudo {p : Pseudo} (rs : List Reg) (bs : List (Nat × Int)) (n : Nat) (sets : p.instrs.filterMap settled? = rs)
    (jumps : p.instrs.all fun i => straight i || (branch? i).isSome) (found : branches p.instrs = bs)
    (size : p.size = n) (h : ∀ r ∈ rs, r ≠ .hp) (inner : ∀ b ∈ bs, 0 ≤ b.1 + b.2 ∧ b.1 + b.2 ≤ n) : Plain [.pseudo p] := by
  refine .of_branches bs n (fun l hl => ?_) (fun index => ?_) size inner
  · rw [List.mem_singleton.1 hl]
    refine fun _ i hi => ⟨fun he => h .hp (sets ▸ List.mem_filterMap.2 ⟨i, hi, he⟩) rfl, ?_⟩
    rintro link w rfl
    cases List.all_eq_true.1 jumps _ hi
  · rw [show instrsOf index [.pseudo p] = p.instrs from List.append_nil _, found]

theorem gpr {r : Reg} (h : r ≠ .hp) (w : Word) (ty : Scalar) : Plain [.pseudo (.gpr r w ty)] :=
  .pseudo [r, r] [] 2 rfl rfl rfl rfl (by simp [h]) (by decide)

theorem zero {base count : Reg} (hb : base ≠ .hp) (hc : count ≠ .hp) : Plain [.pseudo (.zero base count)] :=
  .pseudo [base, count] [(3, -3)] 4 rfl rfl rfl rfl (by simp [hb, hc]) (by decide)

theorem mul {dst a b : Reg} (hd : dst ≠ .hp) (ha : a ≠ .hp) : Plain [.pseudo (.mul dst a b)] :=
  .pseudo [.k1, .k0, .k2, .k1, a, .k0, dst] [(3, 2), (7, 2), (8, -6)] 10 rfl rfl rfl rfl (by simp +decide [hd, ha]) (by decide)

theorem divu {dst a b : Reg} (hd : dst ≠ .hp) (ha : a ≠ .hp) (hb : b ≠ .hp) : Plain [.pseudo (.divu dst a b)] :=
  .pseudo [.k0, .k1, b, dst, .k2, .k2, .k0, .k1, .k2, a, b, .k0, .k1, dst]
    [(3, 3), (5, 16), (7, 6), (9, 4), (12, -6), (14, 3), (19, -6)] 21 rfl rfl rfl rfl (by simp +decide [hd, ha, hb]) (by decide)

theorem divt {dst a b : Reg} (hd : dst ≠ .hp) (ha : a ≠ .hp) (hb : b ≠ .hp) : Plain [.pseudo (.divt dst a b)] :=
  .pseudo [dst, .k3, .k2, a, .k2, b, .k0, .k1, b, dst, .k2, .k2, .k0, .k1, .k2, a, b, .k0, .k1, dst, .k3, dst, dst]
    [(0, 3), (2, 33), (5, 2), (8, 2), (13, 3), (15, 16), (17, 6), (19, 4), (22, -6), (24, 3), (29, -6), (32, 3)] 35 rfl rfl rfl rfl
    (by simp +decide [hd, ha, hb]) (by decide)

theorem label (name : String) : Plain [.label name] := by
  refine .of_branches [] 0 (fun l hl => ?_) (fun _ => rfl) rfl nofun
  rw [List.mem_singleton.1 hl]
  exact fun _ _ hi => absurd hi List.not_mem_nil

theorem jump (mnemonic target : String) : Plain [.jump mnemonic target] := by
  refine .of_branches [] 1 (fun l hl => ?_) (fun _ => rfl) rfl nofun
  rw [List.mem_singleton.1 hl]
  intro index i hi
  rw [List.mem_singleton.1 hi]
  refine ⟨nofun, ?_⟩
  rintro _ _ ⟨⟩
  exact ⟨mnemonic, target, rfl, rfl⟩

end Plain

/-! ## Code with allotments -/

/-- Code in which allotments move the heap pointer, and nothing else. -/
inductive Tiled (map : MemoryMap) : List Line → Prop where
  | nil : Tiled map []
  | line {l : Line} {code : List Line} (tame : l.Tame) (rest : Tiled map code) : Tiled map (l :: code)
  | allot {size : Nat} {code : List Line} (small : size < addressSpace) (rest : Tiled map code) :
    Tiled map (allotment map size ++ code)

variable {map : MemoryMap} {a b code : List Line} {size : Nat} {i : Instr}

namespace Tiled

theorem append (ha : Tiled map a) (hb : Tiled map b) : Tiled map (a ++ b) := by
  induction ha with
  | nil => exact hb
  | line tame _ ih => exact .line tame ih
  | allot small _ ih =>
    rw [List.append_assoc]
    exact .allot small ih

theorem lines (h : ∀ l ∈ a, l.Tame) : Tiled map a := by
  induction a with
  | nil => exact .nil
  | cons l a ih => exact .line (h l List.mem_cons_self) (ih fun l hl => h l (List.mem_cons_of_mem _ hl))

/-- An instruction of tiled code is one of a tame line, or lies in an allotment, which is part of the code. -/
theorem found {m : Linked} {k l : Nat} (h : Tiled map a) (has : m.Has l a) (after : l ≤ k) (before : k < l + codeSize a)
    (hi : m.image[k]? = some i) :
    (∃ line ∈ a, line.Tame ∧ i ∈ line.instrs m.index) ∨
      ∃ j size, size < addressSpace ∧ m.Has j (allotment map size) ∧ l ≤ j ∧ j ≤ k ∧ k < j + codeSize (allotment map size) ∧
        j + codeSize (allotment map size) ≤ l + codeSize a := by
  -- on the tiles: the instruction stands in the first of them, or in those after it
  induction h generalizing l with
  | nil => exact absurd before (Nat.not_lt.2 after)
  | @line first code tame rest ih =>
    obtain ⟨lies, later⟩ := has.cons
    rw [codeSize_cons] at before ⊢
    by_cases here : k < l + first.size
    · have known := List.getElem?_eq_getElem (show k - l < (first.instrs m.index).length by rw [first.length_instrs]; omega)
      have same := lies.get known
      rw [Nat.add_sub_cancel' after, hi] at same
      exact .inl ⟨first, List.mem_cons_self, tame, Option.some.inj same ▸ List.getElem_mem _⟩
    · rcases ih later (Nat.le_of_not_lt here) (by omega) with ⟨line, mem, tame', among⟩ | ⟨j, size, small, lies, past, le, lt, ends⟩
      · exact .inl ⟨line, List.mem_cons_of_mem _ mem, tame', among⟩
      · exact .inr ⟨j, size, small, lies, by omega, le, lt, by omega⟩
  | @allot size code small rest ih =>
    obtain ⟨lies, later⟩ := has.append
    rw [codeSize_append] at before ⊢
    by_cases here : k < l + codeSize (allotment map size)
    · exact .inr ⟨l, size, small, lies, Nat.le_refl l, after, here, by omega⟩
    · rcases ih later (Nat.le_of_not_lt here) (by omega) with ⟨line, mem, tame, among⟩ | ⟨j, size', small, lies, past, le, lt, ends⟩
      · exact .inl ⟨line, List.mem_append_right _ mem, tame, among⟩
      · exact .inr ⟨j, size', small, lies, by omega, le, lt, by omega⟩

/-- There are no labels in allotments. -/
theorem split_label {j : Nat} {name : String} (h : Tiled map code) (hj : code[j]? = some (.label name)) :
    Tiled map (code.take j) ∧ Tiled map (code.drop j) := by
  induction h generalizing j with
  | nil => cases hj
  | @line l code tame rest ih =>
    cases j with
    | zero => exact ⟨.nil, .line tame rest⟩
    | succ j =>
      obtain ⟨before, after⟩ := ih hj
      exact ⟨.line tame before, after⟩
  | @allot size code small rest ih =>
    rcases Nat.lt_or_ge j (allotment map size).length with inside | behind
    · rw [List.getElem?_append_left inside] at hj
      exact absurd (List.mem_of_getElem? hj) ((heapGuard map).label_notMem_lines size name)
    · rw [List.getElem?_append_right behind] at hj
      obtain ⟨before, after⟩ := ih hj
      have front : (allotment map size ++ code).take j = allotment map size ++ code.take (j - (allotment map size).length) := by
        rw [List.take_append, List.take_of_length_le behind]
      have back : (allotment map size ++ code).drop j = code.drop (j - (allotment map size).length) := by
        rw [List.drop_append, List.drop_of_length_le behind, List.nil_append]
      rw [front, back]
      exact ⟨.allot small before, after⟩

end Tiled

/-- Whether no allotment in some code goes around a place. -/
def Outside (map : MemoryMap) (code : List Line) (k : Nat) : Prop :=
  ∃ before among after, code = before ++ (among ++ after) ∧ Tiled map before ∧ (∀ l ∈ among, l.Tame) ∧ Tiled map after ∧
    codeSize before ≤ k ∧ k ≤ codeSize before + codeSize among

namespace Outside

variable {k : Nat}

/-- Between two pieces of code. -/
theorem between (ha : Tiled map a) (hb : Tiled map b) : Outside map (a ++ b) (codeSize a) :=
  ⟨a, [], b, rfl, ha, nofun, hb, Nat.le_refl _, Nat.le_add_right _ _⟩

theorem starts (h : Tiled map a) : Outside map a 0 := between .nil h

theorem ends (h : Tiled map a) : Outside map a (codeSize a) := by
  have outside := between h (.nil : Tiled map [])
  rwa [List.append_nil] at outside

theorem append_left (h : Outside map a k) (hb : Tiled map b) : Outside map (a ++ b) k := by
  obtain ⟨before, among, after, rfl, tiled, tame, tiled', low, high⟩ := h
  exact ⟨before, among, after ++ b, by simp only [List.append_assoc], tiled, tame, tiled'.append hb, low, high⟩

theorem append_right (ha : Tiled map a) (h : Outside map b k) : Outside map (a ++ b) (codeSize a + k) := by
  obtain ⟨before, among, after, rfl, tiled, tame, tiled', low, high⟩ := h
  refine ⟨a ++ before, among, after, by simp only [List.append_assoc], ha.append tiled, tame, tiled', ?_, ?_⟩
  · rw [codeSize_append]; omega
  · rw [codeSize_append]; omega

end Outside

/-! ## Steady code -/

/-- Whether the branches of a part of some code, which begins at instruction `k`, lead outside of allotments. -/
def Led (map : MemoryMap) (code : List Line) (k : Nat) (part : List Line) : Prop :=
  ∀ index, ∀ b ∈ branches (instrsOf index part), ∃ l : Nat, (l : Int) = k + b.1 + b.2 ∧ Outside map code l

/-- Code in which allotments move the heap pointer, and nothing else, and no branch leads into one of them. -/
structure Steady (map : MemoryMap) (code : List Line) : Prop where
  tiled : Tiled map code
  led : Led map code 0 code

namespace Led

variable {part : List Line} {k : Nat}

theorem append (ha : Led map code k a) (hb : Led map code (k + codeSize a) b) : Led map code k (a ++ b) := by
  rintro index ⟨j, o⟩ h
  rw [instrsOf_append] at h
  rcases mem_branches_append h with first | ⟨j', rfl, later⟩
  · exact ha index _ first
  · obtain ⟨l, hl, outside⟩ := hb index _ later
    refine ⟨l, ?_, outside⟩
    rw [length_instrsOf]
    simp only at hl ⊢
    omega

theorem instr {o : Int} {l : Nat} (h : branch? i = some o) (hl : (l : Int) = k + o) (outside : Outside map code l) :
    Led map code k [.instr i] := by
  rintro index ⟨j, o'⟩ hb
  obtain ⟨i', hi, ho⟩ := mem_branches_iff.1 hb
  cases j with
  | zero =>
    cases hi
    obtain rfl := Option.some.inj (h.symm.trans ho)
    exact ⟨l, by simp only; omega, outside⟩
  | succ j => cases hi

/-- The branches of steady code lead outside of allotments of the code around it. -/
theorem within (h : Steady map part) (ha : Tiled map a) (hb : Tiled map b) (hc : code = a ++ (part ++ b)) (hk : k = codeSize a) :
    Led map code k part := by
  intro index x hx
  obtain ⟨l, hl, outside⟩ := h.led index x hx
  refine ⟨k + l, by omega, ?_⟩
  rw [hc, hk]
  exact .append_right ha (outside.append_left hb)

end Led

namespace Steady

/-- Plain lines are steady. -/
theorem plain (h : Plain a) : Steady map a where
  tiled := .lines h.tame
  led index b hb := by
    obtain ⟨low, high⟩ := h.inner index b hb
    refine ⟨(b.1 + b.2).toNat, by omega, [], a, [], (List.append_nil a).symm, .nil, h.tame, .nil, Nat.zero_le _, ?_⟩
    rw [codeSize_nil]; omega

theorem nil : Steady map [] := plain ⟨nofun, nofun⟩

theorem append (ha : Steady map a) (hb : Steady map b) : Steady map (a ++ b) where
  tiled := ha.tiled.append hb.tiled
  led := by
    have whole : a ++ b = a ++ (b ++ []) := by rw [List.append_nil]
    exact .append (.within ha .nil hb.tiled rfl rfl) (.within hb ha.tiled .nil whole (Nat.zero_add _))

theorem line {l : Line} (h : Plain [l]) (rest : Steady map code) : Steady map (l :: code) := (plain h).append rest

theorem allot (small : size < addressSpace) : Steady map (allotment map size) where
  tiled := List.append_nil (allotment map size) ▸ .allot small .nil
  led := by
    rintro index ⟨k, o⟩ hb
    have tiled : Tiled map (allotment map size) := List.append_nil (allotment map size) ▸ .allot small .nil
    -- the only branch leads past the signal
    have ends : (k : Int) + o = codeSize (allotment map size) := by
      rw [← length_instrsOf index]
      obtain ⟨imm, code, -⟩ | ⟨high, low, code, -⟩ := instrsOf_allotment index map size
      · rw [code] at hb ⊢
        have only : branches (.addi .hp .hp imm :: testHeap map) = [(4, 3)] := rfl
        rw [only] at hb
        cases List.mem_singleton.1 hb
        rfl
      · rw [code] at hb ⊢
        have only : branches (.lui .k0 high :: .ori .k0 .k0 low :: .addu .hp .hp .k0 :: testHeap map) = [(6, 3)] := rfl
        rw [only] at hb
        cases List.mem_singleton.1 hb
        rfl
    exact ⟨codeSize (allotment map size), by simp only; omega, .ends tiled⟩

variable {test inside otherwise : List Line} {out back past around : Instr}

theorem codeSize_instr (i : Instr) : codeSize [.instr i] = 1 := rfl

/-- A loop around steady code. -/
theorem loop (ht : Steady map test) (hi : Steady map inside) (ho : branch? out = some (codeSize inside + 2 : Int))
    (hb : branch? back = some (-(codeSize test + codeSize inside + 1) : Int)) :
    Steady map (test ++ .instr out :: (inside ++ [.instr back])) := by
  have last : Tiled map [.instr back] := .line (.branch hb) .nil
  have later : Tiled map (.instr out :: (inside ++ [.instr back])) := .line (.branch ho) (hi.tiled.append last)
  have whole := ht.tiled.append later
  have before : Tiled map (test ++ [.instr out]) := ht.tiled.append (.line (.branch ho) .nil)
  have split : test ++ .instr out :: (inside ++ [.instr back]) = (test ++ [.instr out]) ++ (inside ++ [.instr back]) := by
    rw [List.append_assoc]; rfl
  refine ⟨whole, .append (.within ht .nil later rfl rfl) (.append (a := [_]) (.instr ho ?_ (.ends whole)) (.append
    (.within hi before last split ?_) (.instr hb ?_ (.starts whole))))⟩
  · simp only [codeSize_append, codeSize_cons, codeSize_nil, Line.size]; omega
  · rw [codeSize_append, Nat.zero_add]
  · rw [codeSize_instr]; omega

/-- A branch around steady code. -/
theorem choice (ht : Steady map test) (hi : Steady map inside) (hp : branch? past = some (codeSize inside + 1 : Int)) :
    Steady map (test ++ .instr past :: inside) := by
  have later : Tiled map (.instr past :: inside) := .line (.branch hp) hi.tiled
  have whole := ht.tiled.append later
  have before : Tiled map (test ++ [.instr past]) := ht.tiled.append (.line (.branch hp) .nil)
  have split : test ++ .instr past :: inside = (test ++ [.instr past]) ++ (inside ++ []) := by
    rw [List.append_assoc, List.append_nil]; rfl
  refine ⟨whole, .append (.within ht .nil later rfl rfl) (.append (a := [_]) (.instr hp ?_ (.ends whole))
    (.within hi before .nil split ?_))⟩
  · simp only [codeSize_append, codeSize_cons, Line.size]; omega
  · rw [codeSize_append, Nat.zero_add]

/-- A branch with an alternative, both of them steady. -/
theorem choices (ht : Steady map test) (hi : Steady map inside) (ho : Steady map otherwise)
    (ha : branch? around = some (codeSize inside + 2 : Int)) (hp : branch? past = some (codeSize otherwise + 1 : Int)) :
    Steady map (test ++ .instr around :: (inside ++ .instr past :: otherwise)) := by
  have tail : Tiled map (.instr past :: otherwise) := .line (.branch hp) ho.tiled
  have later : Tiled map (.instr around :: (inside ++ .instr past :: otherwise)) := .line (.branch ha) (hi.tiled.append tail)
  have whole := ht.tiled.append later
  have before : Tiled map (test ++ [.instr around]) := ht.tiled.append (.line (.branch ha) .nil)
  have split : test ++ .instr around :: (inside ++ .instr past :: otherwise) =
      (test ++ [.instr around]) ++ (inside ++ .instr past :: otherwise) := by
    rw [List.append_assoc]; rfl
  have before' : Tiled map ((test ++ [.instr around]) ++ (inside ++ [.instr past])) :=
    before.append (hi.tiled.append (.line (.branch hp) .nil))
  have split' : test ++ .instr around :: (inside ++ .instr past :: otherwise) =
      ((test ++ [.instr around]) ++ (inside ++ [.instr past])) ++ otherwise := by
    simp only [List.append_assoc, List.cons_append, List.nil_append]
  have size' : codeSize ((test ++ [.instr around]) ++ (inside ++ [.instr past])) = codeSize test + codeSize inside + 2 := by
    simp only [codeSize_append, codeSize_instr]; omega
  have joint := Outside.between before' ho.tiled
  rw [← split'] at joint
  refine ⟨whole, .append (.within ht .nil later rfl rfl) (.append (a := [_]) (.instr ha ?_ joint)
    (.append (.within hi before tail split ?_) (.append (a := [_]) (.instr hp ?_ (.ends whole))
      (.within ho before' .nil ?_ ?_))))⟩
  · rw [size']; omega
  · rw [codeSize_append, Nat.zero_add]
  · simp only [codeSize_append, codeSize_cons, Line.size, codeSize_nil]; omega
  · rw [split', List.append_nil]
  · rw [size', codeSize_instr, codeSize_instr]; omega

end Steady

end M32.Lang
