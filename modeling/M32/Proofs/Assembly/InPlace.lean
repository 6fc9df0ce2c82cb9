/-
  A line that is refused leaves no trace, though the assembler works in place.

  1. What is done in place is carried out step by step: what the table of labels does in place (`define_on`, `reference_on`), then
     what a statement and a line do.
  2. `feed_follows` compares `InPlace.feed` with `Assembler.feed`, which gives a new state or none.  They differ in
     one case: a label is bound before it turns out that no jump reaches its address (`Left`).
  3. `Grown`: the program counter moves by four for every new slot.  So jumps reach all addresses of a program
     of fewer than 2^26 instructions (`reaches`).
  4. Hence such a program comes out the same without the lines that were refused (`refused_leave_no_trace`).
-/
import M32.Assembly.InPlace
import M32.Proofs.Assembly.Stream

namespace M32.Assembly

namespace InPlace

variable {line : Nat} {text : List Char} {a b : Assembler}

/-! ## Statements in place -/

theorem onLabels_on {α : Type} (x : InPlace Fault LabelTable α) (a : Assembler) :
    (onLabels x).on a = ((x.on a.labels).1, { a with labels := (x.on a.labels).2 }) := rfl

theorem aimAll_on (index : Word) (waiting : List Nat) (a : Assembler) :
    (aimAll index waiting).on a = (.ok (), { a with slots := Assembler.aimAll a.slots index waiting }) := by
  rw [aimAll, on_forM, Assembler.aimAll]
  induction waiting generalizing a with
  | nil => rfl
  | cons n ns ih => exact ih { a with slots := a.slots.modify n (·.aim index) }

/-- What a line that is refused can leave behind: nothing, or a label at an address that no jump reaches. -/
inductive Left (a : Assembler) (line : Nat) : Assembler → Prop
  | nothing : Left a line a
  | label (name : String) (far : Assembler.jumpIndex a.pc = .error (.unreachable a.pc)) :
    Left a line { a with labels := a.labels.set name (.bound a.pc line) }

/-- What comes of a line in place, next to what comes of it as a whole. -/
inductive Follows (a : Assembler) (line : Nat) {ε : Type} : Except ε Assembler → Except ε Unit × Assembler → Prop
  | taken (b : Assembler) : Follows a line (.ok b) (.ok (), b)
  | refused (e : ε) {b : Assembler} (left : Left a line b) : Follows a line (.error e) (.error e, b)

theorem define_eq_ok {t u : LabelTable} {name : String} {address : Word} {slots : List Nat}
    (h : t.define name address line = .ok (slots, u)) : u = t.set name (.bound address line) := by
  rw [LabelTable.define] at h
  split at h
  · cases h
  · cases h; rfl
  · cases h; rfl

theorem jumpIndex_eq_error {address : Word} {fault : Fault} (h : Assembler.jumpIndex address = .error fault) :
    fault = .unreachable address := by
  simp only [Assembler.jumpIndex] at h
  split at h
  · cases h
  · cases h; rfl

theorem feedStatement_follows (a : Assembler) (line : Nat) (s : Statement) :
    Follows a line (a.feedStatement line s) ((feedStatement line s).on a) := by
  cases s with
  | label name =>
    rw [feedStatement, on_bind, on_get]
    simp only [on_bind, onLabels_on, define_on, Assembler.feedStatement]
    cases hd : a.labels.define name a.pc line with
    | error fault => exact .refused fault .nothing
    | ok d =>
      obtain ⟨waiting, labels⟩ := d
      simp only [on_get, on_except]
      cases hj : Assembler.jumpIndex a.pc with
      | ok index =>
        simp only [aimAll_on]
        exact .taken _
      | error fault =>
        -- the label is bound already
        obtain rfl := jumpIndex_eq_error hj
        obtain rfl := define_eq_ok hd
        exact .refused _ (.label name hj)
  | pseudo p =>
    rw [Assembler.feedStatement, feedStatement]
    cases p.expand with
    | error e => exact .refused _ .nothing
    | ok instrs =>
      simp only [pushAll, on_forM]
      exact .taken _
  | instr i => exact .taken _
  | jump link label =>
    rw [feedStatement, on_bind, on_get]
    simp only [on_bind, onLabels_on, reference_on, Assembler.feedStatement]
    rcases hr : a.labels.reference label a.slots.size with ⟨_ | address, labels⟩
    · exact .taken _
    · simp only [on_bind, on_except]
      have same : labels = a.labels := by
        rw [LabelTable.reference] at hr
        split at hr <;> cases hr
        rfl
      rw [same]
      cases Assembler.jumpIndex address with
      | ok index => exact .taken _
      | error fault => exact .refused _ .nothing

/-! ## Lines in place -/

theorem feed_follows (a : Assembler) (line : Nat) (text : List Char) :
    Follows a line (a.feed line text) ((feed line text).on a) := by
  rw [feed, on_bind, on_adapt, on_bind, on_except, Assembler.feed]
  cases Statement.read text with
  | error fault => exact .refused _ .nothing
  | ok s? =>
    cases s? with
    | none => exact .taken a.settle
    | some s =>
      simp only [bind, Except.bind]
      have follows := feedStatement_follows a line s
      generalize a.feedStatement line s = whole at follows
      generalize (feedStatement line s).on a = steps at follows
      cases follows with
      | taken b => exact .taken b.settle
      | refused e left => exact .refused _ left

theorem feed_taken {u : Unit} (h : (feed line text).on a = (.ok u, b)) : a.feed line text = .ok b := by
  have follows := feed_follows a line text
  rw [h] at follows
  generalize a.feed line text = whole at follows
  cases follows
  rfl

theorem feed_refused {e : Error} (h : (feed line text).on a = (.error e, b)) : a.feed line text = .error e ∧ Left a line b := by
  have follows := feed_follows a line text
  rw [h] at follows
  generalize a.feed line text = whole at follows
  cases follows with
  | refused e left => exact ⟨rfl, left⟩

/-- An assembler with slots added at the end, and its program counter four further for each. -/
def Grown (a b : Assembler) : Prop := ∃ n, b.slots.size = a.slots.size + n ∧ b.pc = a.pc + UInt32.ofNat (4 * n)

theorem grown_of_same (slots : b.slots.size = a.slots.size) (pc : b.pc = a.pc) : Grown a b :=
  ⟨0, slots, by rw [pc]; exact (UInt32.add_zero _).symm⟩

theorem grown_push (a : Assembler) (line : Nat) (pending : Bool) (i : Instr) : Grown a (a.push line pending i) :=
  ⟨1, Array.size_push .., rfl⟩

theorem size_aimAll (slots : Array Slot) (index : Word) (waiting : List Nat) :
    (Assembler.aimAll slots index waiting).size = slots.size := by
  rw [Assembler.aimAll]
  induction waiting generalizing slots with
  | nil => rfl
  | cons n ns ih => rw [List.foldl_cons, ih, Array.size_modify]

theorem grown_feedStatement {s : Statement} (h : a.feedStatement line s = .ok b) : Grown a b := by
  cases s with
  | label name =>
    simp only [Assembler.feedStatement, bind, Except.bind] at h
    split at h
    · cases h
    · split at h
      · cases h
      · cases h
        exact grown_of_same (size_aimAll ..) rfl
  | pseudo p =>
    simp only [Assembler.feedStatement] at h
    split at h
    · next instrs _ =>
      cases h
      obtain ⟨pc, -, slots⟩ := TwoPass.foldl_push (a := a) line instrs
      refine ⟨instrs.length, ?_, pc⟩
      rw [← Array.length_toList, slots, List.length_append, List.length_mapIdx, Array.length_toList]
    · cases h
  | instr i =>
    cases h
    exact grown_push ..
  | jump link label =>
    simp only [Assembler.feedStatement] at h
    split at h
    · next address _ _ =>
      cases hj : Assembler.jumpIndex address with
      | error e => rw [hj] at h; cases h
      | ok index =>
        rw [hj] at h
        cases h
        exact grown_push ..
    · cases h
      exact grown_push ..

theorem grown_feed (h : a.feed line text = .ok b) : Grown a b := by
  dsimp only [Assembler.feed] at h
  split at h
  · next fed hb =>
    cases h
    show Grown a fed
    cases hr : Statement.read text with
    | error e => rw [hr] at hb; cases hb
    | ok s? =>
      rw [hr] at hb
      cases s? with
      | none =>
        cases hb
        exact grown_of_same rfl rfl
      | some s => exact grown_feedStatement hb
  · cases h

/-! ## Calls in place -/

/-- Offers a line to an assembler that works in place, whatever comes of it. -/
def offer (a : Assembler) (c : Call) : Assembler := ((feed c.line c.text).on a).2

/-- The assembler after some calls. -/
def reached (cs : List Call) : Assembler := cs.foldl offer {}

/-- The calls whose lines are not refused. -/
def taken (a : Assembler) : List Call → List Call
  | [] => []
  | c :: cs => match (feed c.line c.text).on a with
    | (.ok _, b) => c :: taken b cs
    | (.error _, b) => taken b cs

variable {cs : List Call} {c : Call}

theorem reached_concat (cs : List Call) (c : Call) : reached (cs ++ [c]) = offer (reached cs) c := List.foldl_concat ..

theorem taken_append (a : Assembler) (cs ds : List Call) :
    taken a (cs ++ ds) = taken a cs ++ taken (cs.foldl offer a) ds := by
  induction cs generalizing a with
  | nil => rfl
  | cons c cs ih =>
    rw [List.cons_append, taken, taken, List.foldl_cons, offer]
    rcases (feed c.line c.text).on a with ⟨_ | _, b⟩
    · exact ih b
    · exact congrArg (c :: ·) (ih b)

theorem Grown.trans {c : Assembler} (h : Grown a b) (h' : Grown b c) : Grown a c := by
  obtain ⟨m, slots, pc⟩ := h
  obtain ⟨n, slots', pc'⟩ := h'
  refine ⟨m + n, by omega, ?_⟩
  rw [pc', pc, Nat.mul_add, UInt32.ofNat_add, UInt32.add_assoc]

theorem Left.eq_of_reach (h : Left a line b) (reach : ∃ index, Assembler.jumpIndex a.pc = .ok index) : b = a := by
  obtain ⟨index, reach⟩ := reach
  cases h with
  | nothing => rfl
  | label name far =>
    rw [reach] at far
    cases far

theorem Left.grown (h : Left a line b) : Grown a b := by
  cases h <;> exact grown_of_same rfl rfl

theorem grown_offer (a : Assembler) (c : Call) : Grown a (offer a c) := by
  rw [offer]
  rcases h : (feed c.line c.text).on a with ⟨e | u, b⟩
  · exact (feed_refused h).2.grown
  · exact grown_feed (feed_taken h)

theorem grown_reached (cs : List Call) : Grown {} (reached cs) := by
  -- by the last call, so that what is reached before is a state of the same kind
  induction cs using List.reverseRecOn with
  | nil => exact grown_of_same rfl rfl
  | append_singleton cs c ih =>
    rw [reached_concat]
    exact ih.trans (grown_offer _ c)

/-- Jumps reach all addresses of a program that is not too long. -/
theorem reaches (bound : (reached cs).slots.size < Instr.indexLimit) : ∃ index, Assembler.jumpIndex (reached cs).pc = .ok index := by
  obtain ⟨n, slots, pc⟩ := grown_reached cs
  have size : (reached cs).slots.size = n := by rw [slots]; exact Nat.zero_add n
  have address : (reached cs).pc = UInt32.ofNat (4 * n) := by rw [pc]; exact UInt32.zero_add _
  rcases TwoPass.jumpIndex_ofNat n with reach | ⟨far, -⟩
  · exact ⟨_, by rw [address]; exact reach⟩
  · omega

/-- A line that is refused leaves a program as it is that is not too long. -/
theorem reached_refused {e : Error} (bound : (reached cs).slots.size < Instr.indexLimit)
    (h : (feed c.line c.text).on (reached cs) = (.error e, b)) : b = reached cs :=
  (feed_refused h).2.eq_of_reach (reaches bound)

theorem offer_eq_call {c : Call} (reach : ∃ index, Assembler.jumpIndex a.pc = .ok index) : offer a c = a.call c := by
  rw [offer, Assembler.call]
  rcases h : (feed c.line c.text).on a with ⟨e | u, b⟩
  · obtain ⟨refused, left⟩ := feed_refused h
    rw [refused]
    exact left.eq_of_reach reach
  · rw [feed_taken h]

theorem size_dropLast_le (cs : List Call) : (reached cs.dropLast).slots.size ≤ (reached cs).slots.size := by
  induction cs using List.reverseRecOn with
  | nil => exact Nat.le_refl _
  | append_singleton cs c _ =>
    rw [List.dropLast_concat, reached_concat]
    obtain ⟨n, slots, -⟩ := grown_offer (reached cs) c
    omega

/-- To work in place is to take every line as a whole or not at all. -/
theorem reached_eq_state (bound : (reached cs.dropLast).slots.size < Instr.indexLimit) : reached cs = Stream.state cs := by
  induction cs using List.reverseRecOn with
  | nil => rfl
  | append_singleton cs c ih =>
    rw [List.dropLast_concat] at bound
    rw [reached_concat, offer_eq_call (reaches bound), ih (Nat.lt_of_le_of_lt (size_dropLast_le cs) bound), Stream.state_append]
    rfl

/-- The lines that were taken are taken without the others too, and lead to the same state. -/
theorem reached_taken (bound : (reached cs.dropLast).slots.size < Instr.indexLimit) :
    reached (taken {} cs) = reached cs ∧
      ∀ k c, (taken {} cs)[k]? = some c → ((feed c.line c.text).on (reached ((taken {} cs).take k))).1 = .ok () := by
  induction cs using List.reverseRecOn with
  | nil => exact ⟨rfl, nofun⟩
  | append_singleton cs c ih =>
    rw [List.dropLast_concat] at bound
    obtain ⟨same, fine⟩ := ih (Nat.lt_of_le_of_lt (size_dropLast_le cs) bound)
    have more : taken {} (cs ++ [c]) = taken {} cs ++ taken (reached cs) [c] := taken_append ..
    rcases h : (feed c.line c.text).on (reached cs) with ⟨e | u, b⟩
    · -- the line is refused, so neither the state nor the lines taken change
      have refused : taken (reached cs) [c] = [] := by rw [taken, h]; rfl
      rw [more, refused, List.append_nil, reached_concat, offer, h]
      rw [reached_refused bound h]
      exact ⟨same, fine⟩
    · have added : taken (reached cs) [c] = [c] := by rw [taken, h]; rfl
      rw [more, added, reached_concat, reached_concat, same]
      refine ⟨rfl, fun k d hd => ?_⟩
      rcases Nat.lt_or_ge k (taken {} cs).length with old | last
      · rw [List.getElem?_append_left old] at hd
        rw [List.take_append_of_le_length (Nat.le_of_lt old)]
        exact fine k d hd
      · obtain rfl : k = (taken {} cs).length := by
          have within := (List.getElem?_eq_some_iff.1 hd).1
          rw [List.length_append, List.length_singleton] at within
          omega
        rw [List.getElem?_concat_length] at hd
        cases hd
        rw [List.take_left, same, h]

/-- A line that is refused leaves no trace.  While a program has fewer than 2^26 instructions, the whole state is as before: the
    program counter, the labels, the final instructions and those that still wait.  If every line finds so few
    instructions, for which it is enough that the last one does, then the lines that were taken are all taken without the
    others too, under the same numbers; they lead to the same state and the same result.  It is the state to which one
    comes by taking every line as a whole or not at all. -/
theorem refused_leave_no_trace :
    (∀ (cs : List Call) (c : Call) (e : Error) (b : Assembler), (reached cs).slots.size < Instr.indexLimit →
      (feed c.line c.text).on (reached cs) = (.error e, b) → b = reached cs) ∧
    ∀ cs : List Call, (reached cs.dropLast).slots.size < Instr.indexLimit →
      (∀ k c, (taken {} cs)[k]? = some c → ((feed c.line c.text).on (reached ((taken {} cs).take k))).1 = .ok ()) ∧
      reached (taken {} cs) = reached cs ∧ (reached (taken {} cs)).finish = (reached cs).finish ∧
      reached cs = Stream.state cs := by
  constructor
  · intro cs c e b bound h
    exact reached_refused bound h
  · intro cs bound
    obtain ⟨same, fine⟩ := reached_taken bound
    exact ⟨fine, same, by rw [same], reached_eq_state bound⟩

/-- A label that is defined again, an operand too few and equal operands of a pseudo-instruction, while a jump waits. -/
theorem refused_leave_no_trace_lines :
    ∃ cs : List Call, cs = [⟨4, "j end".toList⟩, ⟨4, "x:".toList⟩, ⟨9, "x:".toList⟩, ⟨5, "add 1 2".toList⟩,
        ⟨5, "macro: mul(3, 1, 1)".toList⟩, ⟨6, "end:".toList⟩] ∧
      (∃ e b, (feed 9 "x:".toList).on (reached (cs.take 2)) = (.error e, b) ∧ b = reached (cs.take 2)) ∧
      taken {} cs = [⟨4, "j end".toList⟩, ⟨4, "x:".toList⟩, ⟨6, "end:".toList⟩] ∧ reached (taken {} cs) = reached cs := by
  generalize h : ([⟨4, "j end".toList⟩, ⟨4, "x:".toList⟩, ⟨9, "x:".toList⟩, ⟨5, "add 1 2".toList⟩,
    ⟨5, "macro: mul(3, 1, 1)".toList⟩, ⟨6, "end:".toList⟩] : List Call) = cs
  have few : (reached (cs.take 2)).slots.size < Instr.indexLimit := by rw [← h]; decide +kernel
  have bound : (reached cs.dropLast).slots.size < Instr.indexLimit := by rw [← h]; decide +kernel
  have again : ((feed 9 "x:".toList).on (reached (cs.take 2))).1.toOption = none := by rw [← h]; decide +kernel
  have fine : taken {} cs = [⟨4, "j end".toList⟩, ⟨4, "x:".toList⟩, ⟨6, "end:".toList⟩] := by rw [← h]; decide +kernel
  refine ⟨cs, rfl, ?_, fine, (refused_leave_no_trace.2 cs bound).2.1⟩
  rcases h : (feed 9 "x:".toList).on (reached (cs.take 2)) with ⟨e | u, b⟩
  · exact ⟨e, b, rfl, refused_leave_no_trace.1 (cs.take 2) ⟨9, "x:".toList⟩ e b few h⟩
  · rw [h] at again
    cases again

end InPlace

end M32.Assembly
