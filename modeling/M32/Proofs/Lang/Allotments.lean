/-
  Allotments in the image of a program.

  1. `Linked.Makes` says that the lines that take some bytes of the heap stand in an image.  Such lines do not overlap
     (`Makes.same`).
  2. A place of the image is `Clear` if it is behind the first lines and no allotment goes around it.
  3. `Sealed` images have allotments which alone move the heap pointer, and into which nothing leads but from the instruction
     before: branches, jumps to labels and returns from calls lead to clear places.
  4. `sealed_of_programCode`: so it is with the image of a program in which no statement copies to the register of the heap
     pointer.
-/
import M32.Proofs.Lang.Code.Assembled
import M32.Proofs.Lang.Code.Steady

namespace M32.Lang

open Machine

variable {map : MemoryMap} {m : Linked} {j k l size size' : Nat}

/-! ## Allotments in an image -/

/-- Whether an object of so many bytes is made from instruction `k` on. -/
structure Linked.Makes (m : Linked) (map : MemoryMap) (k size : Nat) : Prop where
  small : size < addressSpace
  has : m.Has k (allotment map size)

theorem eq_of_ofInt (small : size < addressSpace) (small' : size' < addressSpace)
    (h : Word.ofInt (size : Int) = Word.ofInt size') : size = size' := by
  simp only [addressSpace] at small small'
  have numbers := congrArg UInt32.toNat h
  rw [Word.ofInt_natCast, Word.ofInt_natCast, UInt32.toNat_ofNat', UInt32.toNat_ofNat'] at numbers
  omega

namespace Linked.Makes

theorem lies (h : m.Makes map k size) : Lies m.image k (instrsOf m.index (allotment map size)) := h.has

/-- Some instruction of an allotment sets the heap pointer. -/
theorem settles (h : m.Makes map k size) :
    ∃ l i, k ≤ l ∧ l < k + codeSize (allotment map size) ∧ m.image[l]? = some i ∧ settled? i = some .hp := by
  have lies := h.lies
  rw [← length_instrsOf m.index]
  obtain ⟨imm, code, -⟩ | ⟨high, low, code, -⟩ := instrsOf_allotment m.index map size
  · rw [code] at lies ⊢
    exact ⟨k, _, Nat.le_refl k, Nat.lt_add_of_pos_right (Nat.succ_pos _), lies.head, rfl⟩
  · rw [code] at lies ⊢
    exact ⟨k + 2, _, Nat.le_add_right k 2, by simp only [List.length_cons]; omega, lies.tail.tail.head, rfl⟩

/-- An allotment begins with one of two instructions. -/
theorem first (h : m.Makes map k size) :
    ∃ i, m.image[k]? = some i ∧ ((∃ imm, i = .addi .hp .hp imm) ∨ ∃ high, i = .lui .k0 high) := by
  have lies := h.lies
  obtain ⟨imm, code, -⟩ | ⟨high, low, code, -⟩ := instrsOf_allotment m.index map size
  · rw [code] at lies
    exact ⟨_, lies.head, .inl ⟨imm, rfl⟩⟩
  · rw [code] at lies
    exact ⟨_, lies.head, .inr ⟨high, rfl⟩⟩

/-- No instruction of an allotment jumps, or goes on at an address that a register holds. -/
theorem stays {i : Instr} (h : m.Makes map k size) (after : k ≤ l) (before : l < k + codeSize (allotment map size))
    (hi : m.image[l]? = some i) : indirect i = false ∧ ∀ link w, i ≠ .jump link w := by
  have mem := List.mem_of_getElem? (h.has.known after before hi)
  obtain ⟨imm, code, -⟩ | ⟨high, low, code, -⟩ := instrsOf_allotment m.index map size <;> rw [code] at mem <;>
    simp only [testHeap, List.mem_cons, List.not_mem_nil, or_false] at mem
  · rcases mem with rfl | rfl | rfl | rfl | rfl | rfl | rfl <;> exact ⟨rfl, nofun⟩
  · rcases mem with rfl | rfl | rfl | rfl | rfl | rfl | rfl | rfl | rfl <;> exact ⟨rfl, nofun⟩

theorem past_le (h : m.Makes map k size) : k + codeSize (allotment map size) ≤ m.image.length := by
  have some_lines := two_lt_codeSize_allotment map size
  have length := length_instrsOf m.index (allotment map size)
  rw [← length]
  exact h.lies.length_le (by omega)

/-- Allotments do not overlap. -/
theorem unique (h : m.Makes map j size) (g : m.Makes map k size') (after : j ≤ k) (before : k < j + codeSize (allotment map size)) :
    k = j ∧ size' = size := by
  obtain ⟨d, rfl⟩ := Nat.exists_eq_add_of_le after
  have same (e : Nat) {i i' : Instr} (hi : (instrsOf m.index (allotment map size))[d + e]? = some i)
      (hi' : (instrsOf m.index (allotment map size'))[e]? = some i') : i = i' := by
    have first := h.has.get hi
    rw [← Nat.add_assoc, g.has.get hi'] at first
    exact Option.some.inj first.symm
  rw [← length_instrsOf m.index] at before
  replace before : d < (instrsOf m.index (allotment map size)).length := by omega
  suffices start : d = 0 ∧ Word.ofInt (size' : Int) = Word.ofInt size from
    ⟨by omega, eq_of_ofInt g.small h.small start.2⟩
  obtain ⟨imm, code, word⟩ | ⟨high, low, code, word⟩ := instrsOf_allotment m.index map size <;>
    obtain ⟨imm', code', word'⟩ | ⟨high', low', code', word'⟩ := instrsOf_allotment m.index map size' <;>
    rw [code] at same before <;> rw [code'] at same
  -- the first instructions differ, or the third ones do
  · match d, before with
    | 0, _ =>
      injection same 0 rfl rfl with _ _ _ same
      exact ⟨rfl, by rw [← word, ← word', same]⟩
    | 5, _ =>
      injection same 0 rfl rfl with _ registers
      exact absurd registers (by decide)
    | 1, _ | 2, _ | 3, _ | 4, _ | 6, _ => cases same 0 rfl rfl
  · match d, before with
    | 1, _ => injection same 2 rfl rfl with operations; exact absurd operations (by decide)
    | 0, _ | 2, _ | 3, _ | 4, _ | 5, _ | 6, _ => cases same 0 rfl rfl
  · match d, before with
    | 7, _ =>
      injection same 0 rfl rfl with _ registers
      exact absurd registers (by decide)
    | 0, _ | 1, _ | 2, _ | 3, _ | 4, _ | 5, _ | 6, _ | 8, _ => cases same 0 rfl rfl
  · match d, before with
    | 0, _ =>
      injection same 0 rfl rfl with _ high
      injection same 1 rfl rfl with _ _ _ low
      subst high low
      have values := congrFun (Option.some.inj ((word' fun _ => 0).symm.trans (word fun _ => 0))) .k0
      rw [setReg_self (by decide), setReg_self (by decide)] at values
      exact ⟨rfl, values⟩
    | 3, _ => injection same 2 rfl rfl with operations; exact absurd operations (by decide)
    | 1, _ | 2, _ | 4, _ | 5, _ | 6, _ | 7, _ | 8, _ => cases same 0 rfl rfl

/-- Allotments with an instruction in common are the same. -/
theorem same (h : m.Makes map j size) (g : m.Makes map k size') (hj : j ≤ l) (hj' : l < j + codeSize (allotment map size))
    (hk : k ≤ l) (hk' : l < k + codeSize (allotment map size')) : j = k ∧ size = size' := by
  rcases Nat.le_total j k with before | after
  · obtain ⟨rfl, rfl⟩ := h.unique g before (by omega)
    exact ⟨rfl, rfl⟩
  · obtain ⟨rfl, rfl⟩ := g.unique h after (by omega)
    exact ⟨rfl, rfl⟩

end Linked.Makes

/-! ## Clear places -/

/-- Whether a place of the image is behind the first lines, and no allotment goes around it. -/
structure Clear (m : Linked) (map : MemoryMap) (k : Nat) : Prop where
  after : codeSize (startCode map) ≤ k
  inside : k ≤ m.image.length
  apart : ∀ j size, m.Makes map j size → k ≤ j ∨ j + codeSize (allotment map size) ≤ k

namespace Clear

/-- The place behind an allotment is clear. -/
theorem past (h : Clear m map k) (makes : m.Makes map k size) : Clear m map (k + codeSize (allotment map size)) where
  after := Nat.le_trans h.after (Nat.le_add_right _ _)
  inside := makes.past_le
  apart j size' other := by
    rcases h.apart j size' other with behind | before
    · rcases Nat.lt_or_ge j (k + codeSize (allotment map size)) with common | behind'
      · obtain ⟨rfl, rfl⟩ := makes.unique other behind common
        exact .inr (Nat.le_refl _)
      · exact .inl behind'
    · exact .inr (Nat.le_trans before (Nat.le_add_right _ _))

/-- The place behind an instruction that is not in an allotment is clear. -/
theorem next (h : Clear m map k) (inside : k < m.image.length) (none_here : ∀ size, ¬ m.Makes map k size) :
    Clear m map (k + 1) where
  after := Nat.le_succ_of_le h.after
  inside := inside
  apart j size other := by
    rcases h.apart j size other with behind | before
    · rcases Nat.lt_or_eq_of_le behind with later | rfl
      · exact .inl later
      · exact absurd other (none_here size)
    · exact .inr (Nat.le_succ_of_le before)

end Clear

/-! ## Sealed images -/

/-- Whether allotments alone move the heap pointer, and nothing leads into one of them but from the instruction before. -/
structure Sealed (m : Linked) (map : MemoryMap) : Prop where
  /-- There are none in the first lines. -/
  behind : ∀ k size, m.Makes map k size → codeSize (startCode map) ≤ k
  allotted : ∀ k i, codeSize (startCode map) ≤ k → m.image[k]? = some i → settled? i = some .hp →
    ∃ j size, m.Makes map j size ∧ j ≤ k ∧ k < j + codeSize (allotment map size)
  branches : ∀ k i o, codeSize (startCode map) ≤ k → m.image[k]? = some i → branch? i = some o →
    ∃ l : Nat, (l : Int) = k + o ∧ Clear m map l
  jumps : ∀ k link w, codeSize (startCode map) ≤ k → m.image[k]? = some (.jump link w) → ∃ l, w <<< 2 = addressOf l ∧ Clear m map l
  calls : ∀ k w, m.image[k]? = some (.jump true w) → Clear m map (k + 1)

/-- An allotment begins at a clear place. -/
theorem Sealed.clear (h : Sealed m map) (makes : m.Makes map k size) : Clear m map k where
  after := h.behind k size makes
  inside := Nat.le_trans (Nat.le_add_right _ _) makes.past_le
  apart j size' other := by
    rcases Nat.lt_or_ge j k with before | behind
    · refine .inr (Nat.le_of_not_lt fun around => ?_)
      exact absurd (other.unique makes (Nat.le_of_lt before) around).1 (by omega)
    · exact .inl behind

/-! ## The image of a program -/

section

variable {scope : Scope} {p : Program} {code rest : List Line}

theorem instrsOf_startCode (map : MemoryMap) (index : String → Nat) : ∃ high high' high'' low low' low'', instrsOf index (startCode map) =
    [.lui .bp high, .ori .bp .bp low, .lui .sp high', .ori .sp .sp low', .lui .hp high'', .ori .hp .hp low'',
      .jump false (UInt32.ofNat (index entryName))] :=
  ⟨_, _, _, _, _, _, rfl⟩

/-- No allotment begins in the first lines, and there is no call. -/
theorem startCode_apart (has : m.Has 0 (startCode map)) (inside : k < codeSize (startCode map)) :
    (∀ size, ¬ m.Makes map k size) ∧ ∀ w, m.image[k]? ≠ some (.jump true w) := by
  obtain ⟨high, high', high'', low, low', low'', code⟩ := instrsOf_startCode map m.index
  have known {i : Instr} (hi : m.image[k]? = some i) : i ∈ instrsOf m.index (startCode map) :=
    List.mem_of_getElem? (has.known (Nat.zero_le k) (by omega) hi)
  rw [code] at known
  simp only [List.mem_cons, List.not_mem_nil, or_false] at known
  refine ⟨fun size makes => ?_, fun w call => ?_⟩
  · obtain ⟨i, hi, begins⟩ := makes.first
    rcases known hi with rfl | rfl | rfl | rfl | rfl | rfl | rfl <;> rcases begins with ⟨imm, he⟩ | ⟨high, he⟩ <;> cases he
  · rcases known call with he | he | he | he | he | he | he <;> cases he

/-- Where no allotment in the lines goes around a place, none in the image does. -/
theorem clear_of_outside (has : m.Has 0 (startCode map ++ rest)) (length : m.image.length = codeSize (startCode map ++ rest))
    (h : Outside map rest k) : Clear m map (codeSize (startCode map) + k) := by
  obtain ⟨before, among, after, rfl, tiled, tame, tiled', low, high⟩ := h
  obtain ⟨start, has⟩ := has.append
  rw [Nat.zero_add] at has
  obtain ⟨has_before, has⟩ := has.append
  obtain ⟨has_among, has_after⟩ := has.append
  rw [codeSize_append, codeSize_append, codeSize_append] at length
  refine ⟨Nat.le_add_right _ _, by omega, fun j size makes => ?_⟩
  refine Classical.byContradiction fun around => ?_
  have behind : codeSize (startCode map) ≤ j := Nat.le_of_not_lt fun inside => (startCode_apart start inside).1 size makes
  obtain ⟨l, i, le, lt, hi, sets⟩ := makes.settles
  have inside := (List.getElem?_eq_some_iff.1 hi).1
  -- the allotment in the lines that the instruction lies in is the same one
  have same {j' size' : Nat} (small : size' < addressSpace) (has : m.Has j' (allotment map size')) (le' : j' ≤ l)
      (lt' : l < j' + codeSize (allotment map size')) : j = j' ∧ size = size' :=
    makes.same ⟨small, has⟩ le lt le' lt'
  have spared {line : Line} (tame : line.Tame) (among : i ∈ line.instrs m.index) : False := (tame m.index i among).1 sets
  rcases Nat.lt_or_ge l (codeSize (startCode map) + codeSize before) with first | later
  · rcases tiled.found has_before (by omega) first hi with ⟨line, -, tame, among⟩ | ⟨j', size', small, has, past, le', lt', ends⟩
    · exact spared tame among
    · obtain ⟨rfl, rfl⟩ := same small has le' lt'
      omega
  · rcases Nat.lt_or_ge l (codeSize (startCode map) + codeSize before + codeSize among) with second | last
    · obtain ⟨line, mem, among⟩ := List.mem_flatMap.1 (List.mem_of_getElem? (has_among.known later second hi))
      exact spared (tame line mem) among
    · rcases tiled'.found has_after last (by omega) hi with ⟨line, -, tame, among⟩ | ⟨j', size', small, has, past, le', lt', ends⟩
      · exact spared tame among
      · obtain ⟨rfl, rfl⟩ := same small has le' lt'
        omega

/-- The place of a label is clear. -/
theorem clear_of_label (has : m.Has 0 (startCode map ++ rest)) (length : m.image.length = codeSize (startCode map ++ rest))
    (tiled : Tiled map rest) {name : String} (hj : (startCode map ++ rest)[j]? = some (.label name)) :
    Clear m map (codeSize ((startCode map ++ rest).take j)) := by
  -- the first lines have no label
  have behind : (startCode map).length ≤ j := Nat.le_of_not_lt fun inside => by
    rw [List.getElem?_append_left inside] at hj
    simpa [startCode] using List.mem_of_getElem? hj
  rw [List.getElem?_append_right behind] at hj
  obtain ⟨before, after⟩ := tiled.split_label hj
  have outside := Outside.between before after
  rw [List.take_append_drop] at outside
  rw [List.take_append, List.take_of_length_le behind, codeSize_append]
  exact clear_of_outside has length outside

/-- The image of a program in which no statement copies to the register of the heap pointer. -/
theorem sealed_of_programCode (context : Scope.ofProgram map p = .ok scope) (compiled : programCode scope p = .ok code)
    (spares : ∀ f ∈ p.functions, SparesHeap f.body) {index : String → Nat}
    (labels : ∀ (j : Nat) name, code[j]? = some (.label name) → index name = codeSize (code.take j)) :
    Sealed ⟨instrsOf index code, index⟩ map := by
  obtain ⟨collected, -⟩ := collected_of_ofProgram context
  obtain ⟨written, names⟩ := written_programCode context compiled
  obtain rfl := collected.map
  obtain ⟨rest, rfl, steady⟩ := steady_programCode collected.bounded compiled spares
  let m : Linked := ⟨instrsOf index (startCode scope.map ++ rest), index⟩
  have has : m.Has 0 (startCode scope.map ++ rest) := Lies.self _
  have length : m.image.length = codeSize (startCode scope.map ++ rest) := length_instrsOf index _
  obtain ⟨start, later⟩ := has.append
  rw [Nat.zero_add] at later
  have before {k : Nat} {i : Instr} (hi : m.image[k]? = some i) : k < codeSize (startCode scope.map) + codeSize rest := by
    have inside := (List.getElem?_eq_some_iff.1 hi).1
    rwa [length, codeSize_append] at inside
  refine ⟨fun k size makes => ?_, fun k i after hi sets => ?_, fun k i o after hi ho => ?_, fun k link w after hi => ?_,
    fun k w hi => ?_⟩
  · exact Nat.le_of_not_lt fun inside => (startCode_apart start inside).1 size makes
  · rcases steady.tiled.found later after (before hi) hi with ⟨line, -, tame, among⟩ | ⟨j, size, small, has, -, le, lt, -⟩
    · exact absurd sets (tame index i among).1
    · exact ⟨j, size, ⟨small, has⟩, le, lt⟩
  · obtain ⟨l, hl, outside⟩ := steady.led index (k - codeSize (startCode scope.map), o)
      (mem_branches_iff.2 ⟨i, later.known after (before hi) hi, ho⟩)
    exact ⟨codeSize (startCode scope.map) + l, by simp only at hl; omega, clear_of_outside has length outside⟩
  · rcases steady.tiled.found later after (before hi) hi with ⟨line, mem, tame, among⟩ | ⟨j, size, small, has, -, le, lt, -⟩
    · obtain ⟨mnemonic, target, rfl, rfl⟩ := (tame index _ among).2 link w rfl
      have named := (written _ (List.mem_append_right _ mem)).2
      rw [← names] at named
      obtain ⟨j, hj⟩ := List.getElem?_of_mem (mem_labelsOf_iff.1 named)
      refine ⟨_, ?_, clear_of_label has length steady.tiled hj⟩
      rw [shiftLeft_two, labels j target hj]
    · exact absurd rfl ((Linked.Makes.stays ⟨small, has⟩ le lt hi).2 link w)
  · have after : codeSize (startCode scope.map) ≤ k := Nat.le_of_not_lt fun inside => (startCode_apart start inside).2 w hi
    refine ⟨Nat.le_succ_of_le after, (List.getElem?_eq_some_iff.1 hi).1, fun j size makes => ?_⟩
    refine Classical.byContradiction fun around => ?_
    exact absurd rfl ((makes.stays (by omega) (by omega) hi).2 true w)

end

end M32.Lang
