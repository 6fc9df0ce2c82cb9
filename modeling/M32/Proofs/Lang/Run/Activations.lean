/-
  Machines that carry out a function at work.

  1. `Linked.Fits` collects what the memory map of a program and its image have to fulfil, and `Activation.Placed` where
     frames lie: those of the function and of all that wait for it lie above its stack pointer and below the top of the stack.
  2. `Matches` relates a machine to an activation and a store: the words that the program reaches are the same, and the
     heap that is still free is zero.  A store to a reached word keeps it (`Shows.store`).
  3. `Spares` is the frame condition: from the stack pointer upward, only words in frames may have changed.  Every
     function leaves return addresses and places of results of its callers alone because of it.
-/
import M32.Proofs.Lang.Code.Seen

namespace M32.Lang

open Machine

/-! ## Where things lie -/

/-- Whether an image and the data of a program fit its memory map. -/
structure Linked.Fits (m : Linked) (scope : Scope) : Prop where
  bounded : scope.types.Bounded
  aligned : scope.types.Aligned
  framed : ∀ f ∈ scope.functions, f.Framed
  map : scope.map.fault? = none
  some_code : 0 < m.image.length
  image : 4 * m.image.length ≤ scope.map.globalBase.toNat
  globals : scope.map.globalBase.toNat + (scope.globals?.getD {}).size ≤ scope.map.heapBase.toNat

/-- Whether frames lie where they should. -/
structure Activation.Placed (c : Activation) : Prop where
  aligned : c.sp.toNat % 4 = 0
  low : c.scope.map.stackLimit.toNat ≤ c.sp.toNat
  start : c.start.toNat = c.sp.toNat + (if c.self.isEntry then 0 else Site.linkArea)
  blocks : ∀ b ∈ c.frame :: c.waiting, c.start.toNat ≤ b.start ∧ b.start + b.size ≤ c.scope.map.stackTop.toNat

namespace Linked.Fits

variable {m : Linked} {scope : Scope}

/-- The regions of memory lie in order. -/
theorem ordered (h : m.Fits scope) : scope.map.globalBase.toNat ≤ scope.map.heapBase.toNat ∧
    scope.map.heapBase.toNat ≤ scope.map.heapLimit.toNat ∧ scope.map.heapLimit.toNat ≤ scope.map.stackLimit.toNat ∧
    scope.map.stackLimit.toNat ≤ scope.map.stackTop.toNat := by
  obtain ⟨g, l, s, t⟩ := MemoryMap.ordered_of_fault?_eq_none h.map
  exact ⟨UInt32.le_iff_toNat_le.1 g, UInt32.le_iff_toNat_le.1 l, UInt32.le_iff_toNat_le.1 s, UInt32.le_iff_toNat_le.1 t⟩

end Linked.Fits

theorem Block.holds_iff {b : Block} {a : Word} : b.holds a = true ↔ b.start ≤ a.toNat ∧ a.toNat + 4 ≤ b.start + b.size := by
  rw [Block.holds, Bool.and_eq_true, decide_eq_true_iff, decide_eq_true_iff]

theorem mod_four_iff {a : Word} : a % 4 = 0 ↔ a.toNat % 4 = 0 := by
  rw [← UInt32.toNat_inj, UInt32.toNat_mod]; rfl

/-! ## Words that are reached -/

variable {m : Linked} {c : Activation} {st st' : Store} {s t u : State} {a : Word}

theorem reaches_iff : c.reaches st a = true ↔ a.toNat % 4 = 0 ∧
    ((c.globals.holds a = true ∨ (c.heap st).holds a = true) ∨ ∃ b ∈ c.frame :: c.waiting, b.holds a = true) := by
  rw [Activation.reaches, Bool.and_eq_true, decide_eq_true_iff, mod_four_iff, List.any_cons, List.any_cons, Bool.or_eq_true,
    Bool.or_eq_true, List.any_eq_true, or_assoc]

/-- A word that is reached lies among the globals and the objects of the heap, or in a frame. -/
theorem Activation.Placed.region (h : c.Placed) (fits : m.Fits c.scope) (low : c.scope.map.heapBase.toNat ≤ st.next.toNat)
    (ha : c.reaches st a = true) : a.toNat % 4 = 0 ∧ (c.scope.map.globalBase.toNat ≤ a.toNat ∧ a.toNat + 4 ≤ st.next.toNat ∨
      c.start.toNat ≤ a.toNat ∧ a.toNat + 4 ≤ c.scope.map.stackTop.toNat ∧ ∃ b ∈ c.frame :: c.waiting, b.holds a = true) := by
  obtain ⟨aligned, data | ⟨b, hb, holds⟩⟩ := reaches_iff.1 ha
  · refine ⟨aligned, .inl ?_⟩
    have globals := fits.globals
    obtain ⟨base, -⟩ := fits.ordered
    rcases data with data | data
    · obtain ⟨first, last⟩ := Block.holds_iff.1 data
      simp only [Activation.globals] at first last
      omega
    · obtain ⟨first, last⟩ := Block.holds_iff.1 data
      simp only [Activation.heap] at first last
      omega
  · obtain ⟨first, last⟩ := Block.holds_iff.1 holds
    obtain ⟨above, below⟩ := h.blocks b hb
    exact ⟨aligned, .inr ⟨by omega, by omega, b, hb, holds⟩⟩

/-! ## The relation -/

/-- Whether the memory of a machine is what an activation knows of a store. -/
structure Shows (c : Activation) (st : Store) (s : State) : Prop where
  word : ∀ a, c.reaches st a = true → s.memory.read a = st.word a
  aligned : st.next.toNat % 4 = 0
  low : c.scope.map.heapBase.toNat ≤ st.next.toNat
  high : st.next.toNat ≤ c.scope.map.heapLimit.toNat
  fresh : ∀ a : Word, a.toNat % 4 = 0 → st.next.toNat ≤ a.toNat → a.toNat + 4 ≤ c.scope.map.heapLimit.toNat →
    s.memory.read a = 0
  size : c.scope.map.stackTop.toNat ≤ s.memory.size

/-- Whether a machine carries out an activation. -/
structure Matches (c : Activation) (st : Store) (s : State) : Prop extends Shows c st s where
  sp : s.reg .sp = c.sp
  bp : s.reg .bp = c.scope.map.globalBase
  hp : s.reg .hp = st.next

/-- Whether words above the stack pointer and outside of frames are as they were. -/
def Spares (c : Activation) (s t : State) : Prop := ∀ a : Word, a.toNat % 4 = 0 → c.sp.toNat ≤ a.toNat →
  (∀ b ∈ c.frame :: c.waiting, b.holds a = false) → t.memory.read a = s.memory.read a

theorem Spares.trans (h : Spares c s t) (g : Spares c t u) : Spares c s u :=
  fun a aligned above outside => (g a aligned above outside).trans (h a aligned above outside)

theorem Spares.of_memory (h : t.memory = s.memory) : Spares c s t := fun _ _ _ _ => by rw [h]

theorem Store.word_put (st : Store) (a w b : Word) : (st.put a w).word b = if b = a then w else st.word b := rfl

namespace Shows

theorem of_memory (h : Shows c st s) (memory : t.memory = s.memory) : Shows c st t where
  word := by rw [memory]; exact h.word
  aligned := h.aligned
  low := h.low
  high := h.high
  fresh := by rw [memory]; exact h.fresh
  size := by rw [memory]; exact h.size

/-- A word that is reached lies in memory and behind the image. -/
theorem access (h : Shows c st s) (placed : c.Placed) (fits : m.Fits c.scope) (ha : c.reaches st a = true) :
    CanAccess s a ∧ 4 * m.image.length ≤ a.toNat := by
  obtain ⟨base, limit, stack, top⟩ := fits.ordered
  have image := fits.image
  have low := placed.low
  have start := placed.start
  obtain ⟨aligned, region⟩ := placed.region fits h.low ha
  refine ⟨⟨aligned, ?_⟩, ?_⟩
  · have size := h.size
    have high := h.high
    rcases region with ⟨-, last⟩ | ⟨-, last, -⟩ <;> omega
  · rcases region with ⟨first, -⟩ | ⟨first, -, -⟩ <;> omega

/-- A word that is reached is changed. -/
theorem store {w : Word} (h : Shows c st s) (placed : c.Placed) (fits : m.Fits c.scope) (ha : c.reaches st a = true)
    (memory : t.memory = s.memory.write a w) : Shows c (st.put a w) t ∧ Spares c s t := by
  obtain ⟨aligned, region⟩ := placed.region fits h.low ha
  obtain ⟨-, -, stack, -⟩ := fits.ordered
  have high := h.high
  have low := placed.low
  have start := placed.start
  refine ⟨⟨fun b hb => ?_, h.aligned, h.low, h.high, fun b hb first last => ?_, ?_⟩, fun b hb above outside => ?_⟩
  · have hb : c.reaches st b = true := hb
    rw [memory, Memory.read_write _ aligned (reaches_iff.1 hb).1, Store.word_put]
    by_cases same : a = b
    · rw [if_pos same, if_pos same.symm]
    · rw [if_neg same, if_neg (Ne.symm same), h.word b hb]
  · have first : st.next.toNat ≤ b.toNat := first
    have apart : a ≠ b := by
      rintro rfl
      rcases region with ⟨-, before⟩ | ⟨after, -, -⟩ <;> omega
    rw [memory, Memory.read_write _ aligned hb, if_neg apart]
    exact h.fresh b hb first last
  · rw [memory, Memory.size_write]
    exact h.size
  · have apart : a ≠ b := by
      rintro rfl
      rcases region with ⟨-, before⟩ | ⟨-, -, block, hblock, holds⟩
      · omega
      · rw [outside block hblock] at holds
        cases holds
    rw [memory, Memory.read_write _ aligned hb, if_neg apart]

end Shows

namespace Matches

theorem sees (h : Matches c st s) (placed : c.Placed) (fits : m.Fits c.scope) : Sees c st s where
  sp := h.sp
  bp := h.bp
  word := fun a ha => ⟨(h.access placed fits ha).1, h.word a ha⟩

/-- Code for expressions keeps the relation. -/
theorem keeps {p : RegPool} (h : Matches c st s) (k : Keeps p s t) : Matches c st t where
  toShows := h.toShows.of_memory k.memory
  sp := (k.regs .sp p.guards_sp).trans h.sp
  bp := (k.regs .bp p.guards_bp).trans h.bp
  hp := (k.regs .hp p.guards_hp).trans h.hp

end Matches

/-! ## What statements lead to -/

/-- Whether the next step ends the program with a signal. -/
def Halts (s : State) (code : Word) : Prop :=
  ∃ pc i? t, s.step = (t, .ok ⟨pc, i?, some (.signal code)⟩) ∧ t.memory = s.memory

/-- Whether a function has returned. -/
structure Returned (c : Activation) (st : Store) (s t : State) : Prop extends Shows c st t where
  sp : t.reg .sp = c.sp + UInt32.ofNat (Activation.need c.self)
  bp : t.reg .bp = c.scope.map.globalBase
  hp : t.reg .hp = st.next
  spares : Spares c s t

/-- What holds of the state in which statements leave their function, if they come to an outcome.  The function returns to
    instruction `ret`. -/
def Exits (m : Linked) (c : Activation) (ret : Nat) (s : State) (fuel : Nat) (o : Outcome) (steps : Nat) (t : State) : Prop :=
  match o with
  | .next _ => False
  | .back st => At m.image ret t ∧ Returned c st s t
  | .stop code st => Halts t code ∧ ∀ a, c.reaches st a = true → t.memory.read a = st.word a
  | .timeout => fuel ≤ steps
  | .stuck => True

/-- Whether code carries out what comes to an outcome. -/
def Carries (m : Linked) (c : Activation) (ret : Nat) (x : Emit Unit) (p : RegPool) (s : State) (fuel : Nat) (o : Outcome) : Prop :=
  x.Leads m p s (fun _ _ t => ∃ st, o = .next st ∧ Matches c st t ∧ Spares c s t) (Exits m c ret s fuel o)

variable {ret fuel : Nat} {x : Emit Unit} {p : RegPool}

theorem Carries.stuck : Carries m c ret x p s fuel .stuck := fun _ _ _ _ _ => .inr ⟨0, 0, s, .refl s, Nat.le_refl 0, trivial⟩

/-- What has no value has no meaning. -/
theorem Carries.given {α : Type} {value? : Option α} {f : α → Outcome}
    (h : ∀ v, value? = some v → Carries m c ret x p s fuel (f v)) : Carries m c ret x p s fuel (.given value? f) := by
  cases hv : value? with
  | none => exact .stuck
  | some v => exact h v hv

/-- The state from which a run started may be replaced by an earlier one. -/
theorem Exits.earlier {o : Outcome} {steps steps' fuel' : Nat} (h : Exits m c ret t fuel o steps u) (spares : Spares c s t)
    (more : fuel' + steps ≤ fuel + steps') : Exits m c ret s fuel' o steps' u := by
  cases o with
  | next st => exact h
  | back st => exact ⟨h.1, { h.2 with spares := spares.trans h.2.spares }⟩
  | stop code st => exact h
  | timeout =>
    have late : fuel ≤ steps := h
    show fuel' ≤ steps'
    omega
  | stuck => trivial

end M32.Lang
