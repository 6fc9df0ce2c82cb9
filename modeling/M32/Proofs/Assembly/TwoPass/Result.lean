/-
  The assembler against a plain one of two passes: texts.

  1. A line that is right is taken and keeps `Agrees`, a wrong one is refused with its offence (`feed_of_fine`,
     `feed_of_offence`); so lines are taken up to the first wrong one (`feedLines_of_fine`, `feedLines_of_firstError`).
     What is assembled agrees with its lines, however many there are (`agrees_of_feedLines`).
  2. `assemble_two_pass` says when a text is assembled, to which program, and with what error it is refused.
-/
import M32.Proofs.Assembly.TwoPass.Agreement

namespace M32.Assembly.TwoPass

variable {ls ms : List (List Char)} {text : List Char} {a : Assembler}

/-! ## One line -/

/-- A line that is refused on its own is refused with its own fault. -/
theorem feed_of_accept_error {fault : Fault} (line : Nat) (h : accept text = .error fault) :
    a.feed line text = .error ⟨some line, fault⟩ := by
  unfold accept at h
  rw [Assembler.feed]
  split at h
  · next p hr =>
    cases hx : p.expand with
    | ok is => simp [hx] at h
    | error e =>
      rw [hx] at h
      cases h
      simp only [hr, bind, Except.bind, Assembler.feedStatement, hx]
  · rw [h]; rfl

/-- A line that is accepted gives its statement to the assembler. -/
theorem feed_of_accept_ok {s? : Option Statement} (line : Nat) (h : accept text = .ok s?) :
    a.feed line text = match s? with
      | none => .ok a.settle
      | some s => match a.feedStatement line s with
        | .ok a => .ok a.settle
        | .error fault => .error ⟨some line, fault⟩ := by
  have hr : Statement.read text = .ok s? := by
    unfold accept at h
    split at h
    · next p hr =>
      cases hx : p.expand with
      | ok is => rw [hx] at h; cases h; exact hr
      | error e => simp [hx] at h
    · exact h
  rw [Assembler.feed, hr]
  cases s? <;> rfl

theorem expand_of_accept {p : Pseudo} (h : accept text = .ok (some (.pseudo p))) : p.expand = .ok p.instrs := by
  unfold accept at h
  split at h
  · next q hr =>
    cases hx : q.expand with
    | ok is =>
      rw [hx] at h
      cases h
      unfold Pseudo.expand at hx ⊢
      split at hx
      · cases hx
      · rfl
    | error e => simp [hx] at h
  · next r hr =>
    exact absurd h (hr p)

/-- A line that is wrong after the lines before it is refused. -/
theorem feed_of_offence {fault : Fault} (h : Agrees a ls) (ho : offence? ls text = some fault) :
    a.feed (ls.length + 1) text = .error ⟨some (ls.length + 1), fault⟩ := by
  unfold offence? at ho
  split at ho
  · next hx =>
    cases ho
    exact feed_of_accept_error _ hx
  · next name hx =>
    obtain ⟨⟨index, line⟩, hd, rfl⟩ := Option.map_eq_some_iff.1 ho
    have hf := h.find name
    rw [binding?, hd] at hf
    rw [feed_of_accept_ok _ hx]
    simp only [Assembler.feedStatement, LabelTable.define, hf]
    rfl
  · cases ho

/-- A line that is right is taken, unless it needs an index that no jump can name. -/
theorem feed_of_fine (h : Agrees a ls) (ho : offence? ls text = none) :
    (∃ b, a.feed (ls.length + 1) text = .ok b ∧ Agrees b (ls ++ [text])) ∨
      (Instr.indexLimit ≤ size ls ∧ ∃ e, a.feed (ls.length + 1) text = .error e) := by
  -- the two outcomes of a statement are those of its line
  have settle {s : Statement} (hx : accept text = .ok (some s))
      (hs : (∃ b, a.feedStatement (ls.length + 1) s = .ok b ∧ Agrees b (ls ++ [text])) ∨
        (Instr.indexLimit ≤ size ls ∧ ∃ e, a.feedStatement (ls.length + 1) s = .error e)) :
      (∃ b, a.feed (ls.length + 1) text = .ok b ∧ Agrees b (ls ++ [text])) ∨
        (Instr.indexLimit ≤ size ls ∧ ∃ e, a.feed (ls.length + 1) text = .error e) := by
    rw [feed_of_accept_ok _ hx]
    rcases hs with ⟨b, hb, agrees⟩ | ⟨hlim, e, he⟩
    · exact .inl ⟨b.settle, by simp only [hb], agrees.settle⟩
    · exact .inr ⟨hlim, ⟨some (ls.length + 1), e⟩, by simp only [he]⟩
  cases hx : accept text with
  | error fault => rw [offence?, hx] at ho; cases ho
  | ok s? =>
    have hs : statement? text = s? := by rw [statement?, hx]
    match s? with
    | none =>
      have hc : cellsOf text = ([] : List Instr).map .instr := by rw [cellsOf, hs]; rfl
      refine .inl ⟨a.settle, feed_of_accept_ok _ hx, Agrees.settle ?_⟩
      exact agrees_instrs h hc (by rw [label?, hs]) (by rw [mention, hs])
    | some (.instr i) =>
      have hc : cellsOf text = [i].map .instr := by rw [cellsOf, hs]; rfl
      exact settle hx (.inl ⟨_, rfl, agrees_instrs h hc (by rw [label?, hs]) (by rw [mention, hs])⟩)
    | some (.pseudo p) =>
      have hc : cellsOf text = p.instrs.map .instr := by rw [cellsOf, hs]; rfl
      have fed : a.feedStatement (ls.length + 1) (.pseudo p)
          = .ok (p.instrs.foldl (fun a i => a.push (ls.length + 1) false i) a) := by
        simp only [Assembler.feedStatement, expand_of_accept hx]
      exact settle hx (.inl ⟨_, fed, agrees_instrs h hc (by rw [label?, hs]) (by rw [mention, hs])⟩)
    | some (.jump link name) => exact settle hx (agrees_jump h hs)
    | some (.label name) =>
      rw [offence?, hx] at ho
      exact settle hx (agrees_label h hs (Option.map_eq_none_iff.1 ho))

/-! ## Lines in a row -/

theorem length_concat (ls : List (List Char)) (text : List Char) : (ls ++ [text]).length + 1 = ls.length + 1 + 1 := by
  rw [List.length_append]; rfl

theorem size_le_append (ls ms : List (List Char)) : size ls ≤ size (ls ++ ms) := by
  rw [size_append]; exact Nat.le_add_right ..

/-- Lines that are all right are all taken, if no jump lies too far. -/
theorem feedLines_of_fine (h : Agrees a ls) (ho : firstError? ls ms = none) (bound : size (ls ++ ms) < Instr.indexLimit) :
    ∃ b, a.feedLines (ls.length + 1) ms = .ok b ∧ Agrees b (ls ++ ms) := by
  -- on the lines: `Agrees` is what a line hands on to those after it
  induction ms generalizing a ls with
  | nil => exact ⟨a, rfl, by rwa [List.append_nil]⟩
  | cons text ms ih =>
    rw [firstError?] at ho
    split at ho
    · cases ho
    · next fine =>
      rw [List.append_cons] at bound
      rcases feed_of_fine h fine with ⟨b, hb, agrees⟩ | ⟨hlim, _⟩
      · obtain ⟨c, hc, all⟩ := ih agrees ho bound
        rw [length_concat] at hc
        refine ⟨c, ?_, by rwa [List.append_cons]⟩
        rw [Assembler.feedLines, hb]
        exact hc
      · have := size_le_append ls [text]
        have := size_le_append (ls ++ [text]) ms
        omega

/-- The first line that is wrong is the one that is refused. -/
theorem feedLines_of_firstError {e : Error} (h : Agrees a ls) (ho : firstError? ls ms = some e)
    (bound : size (ls ++ ms) < Instr.indexLimit) : a.feedLines (ls.length + 1) ms = .error e := by
  induction ms generalizing a ls with
  | nil => cases ho
  | cons text ms ih =>
    rw [firstError?] at ho
    rw [List.append_cons] at bound
    split at ho
    · next fault wrong =>
      cases ho
      rw [Assembler.feedLines, feed_of_offence h wrong]
      rfl
    · next fine =>
      rcases feed_of_fine h fine with ⟨b, hb, agrees⟩ | ⟨hlim, _⟩
      · have rest := ih agrees ho bound
        rw [length_concat] at rest
        rw [Assembler.feedLines, hb]
        exact rest
      · have := size_le_append ls [text]
        have := size_le_append (ls ++ [text]) ms
        omega

/-- An assembler that has taken some lines agrees with them, however many they are. -/
theorem agrees_of_feedLines {b : Assembler} (h : Agrees a ls) (hb : a.feedLines (ls.length + 1) ms = .ok b) :
    Agrees b (ls ++ ms) ∧ firstError? ls ms = none := by
  induction ms generalizing a ls with
  | nil =>
    cases hb
    exact ⟨by rwa [List.append_nil], rfl⟩
  | cons text ms ih =>
    cases ho : offence? ls text with
    | some fault =>
      rw [Assembler.feedLines, feed_of_offence h ho] at hb
      cases hb
    | none =>
      rw [Assembler.feedLines] at hb
      rcases feed_of_fine h ho with ⟨c, hc, agrees⟩ | ⟨_, e, he⟩
      · rw [hc] at hb
        rw [List.append_cons, firstError?, ho]
        exact ih agrees (by rw [length_concat]; exact hb)
      · rw [he] at hb
        cases hb

/-! ## The assembler and the two passes -/

/-- No line is wrong if all are accepted and no label is defined twice. -/
theorem firstError?_eq_none_iff :
    firstError? ls ms = none ↔
      (∀ text ∈ ms, ∃ s?, accept text = .ok s?) ∧ (labels ms).Nodup ∧ ∀ name ∈ labels ms, name ∉ labels ls := by
  induction ms generalizing ls with
  | nil => simp [firstError?, labels]
  | cons text ms ih =>
    rw [firstError?]
    cases hx : accept text with
    | error fault =>
      simp only [offence?, hx, List.forall_mem_cons]
      simp
    | ok s? =>
      have hs : statement? text = s? := by rw [statement?, hx]
      by_cases hl : ∃ name, s? = some (.label name)
      · obtain ⟨name, rfl⟩ := hl
        have hlabel : label? text = some name := by rw [label?, hs]
        have hms : labels (text :: ms) = name :: labels ms := List.filterMap_cons_some hlabel
        have hls : labels (ls ++ [text]) = labels ls ++ [name] := by simp [labels, hlabel]
        cases hd : definition? name ls with
        | some d =>
          have known : name ∈ labels ls := definition?_isSome_iff.1 (by rw [hd]; rfl)
          simp [offence?, hx, hd, hms, known]
        | none =>
          have fresh : name ∉ labels ls := definition?_eq_none_iff.1 hd
          simp only [offence?, hx, hd, Option.map_none, ih, hms, hls, List.forall_mem_cons, List.nodup_cons,
            List.mem_append, List.mem_singleton, not_or]
          constructor
          · rintro ⟨ha, hn, hm⟩
            exact ⟨⟨⟨_, rfl⟩, ha⟩, ⟨fun h => (hm name h).2 rfl, hn⟩, fresh, fun n h => (hm n h).1⟩
          · rintro ⟨⟨_, ha⟩, ⟨hname, hn⟩, _, hm⟩
            exact ⟨ha, hn, fun n h => ⟨hm n h, fun e => hname (e ▸ h)⟩⟩
      · have hlabel : label? text = none := by
          rw [label?, hs]
          split
          · next name => exact absurd ⟨name, rfl⟩ hl
          · rfl
        have hms : labels (text :: ms) = labels ms := List.filterMap_cons_none hlabel
        have hls : labels (ls ++ [text]) = labels ls := by simp [labels, hlabel]
        have fine : offence? ls text = none := by
          rw [offence?, hx]
          split
          · next h => cases h
          · next name h => exact absurd ⟨name, Except.ok.inj h⟩ hl
          · rfl
        rw [fine, hms]
        simp only [ih, hls, List.forall_mem_cons, hx]
        simp

/-- The first error is that of the first line with an offence. -/
theorem firstError?_eq_some_iff {e : Error} :
    firstError? ls ms = some e ↔ ∃ k text fault, ms[k]? = some text ∧ offence? (ls ++ ms.take k) text = some fault ∧
      (∀ j < k, ∀ t, ms[j]? = some t → offence? (ls ++ ms.take j) t = none) ∧
      e = ⟨some (ls.length + k + 1), fault⟩ := by
  induction ms generalizing ls with
  | nil => simp [firstError?]
  | cons text ms ih =>
    rw [firstError?]
    cases ho : offence? ls text with
    | some fault =>
      constructor
      · rintro ⟨⟩
        exact ⟨0, text, fault, rfl, by simpa using ho, fun j hj => absurd hj (Nat.not_lt_zero j), rfl⟩
      · rintro ⟨k, t, fault', ht, hf, before, rfl⟩
        cases k with
        | zero =>
          cases ht
          rw [List.take_zero, List.append_nil, ho] at hf
          cases hf; rfl
        | succ k =>
          have := before 0 (Nat.succ_pos k) text rfl
          rw [List.take_zero, List.append_nil, ho] at this
          cases this
    | none =>
      rw [ih]
      constructor
      · rintro ⟨k, t, fault, ht, hf, before, rfl⟩
        refine ⟨k + 1, t, fault, ht, by simpa using hf, ?_, by simp; omega⟩
        rintro (_ | j) hj t' ht'
        · cases ht'; simpa using ho
        · simpa using before j (Nat.lt_of_succ_lt_succ hj) t' ht'
      · rintro ⟨k, t, fault, ht, hf, before, rfl⟩
        cases k with
        | zero =>
          cases ht
          rw [List.take_zero, List.append_nil, ho] at hf
          cases hf
        | succ k =>
          refine ⟨k, t, fault, ht, by simpa using hf, fun j hj t' ht' => ?_, by simp; omega⟩
          simpa using before (j + 1) (Nat.succ_lt_succ hj) t' ht'

theorem undefined_eq_nil_iff : undefined ls = [] ↔ ∀ name ∈ targets ls, name ∈ labels ls := by
  rw [undefined, List.filter_eq_nil_iff]
  simp only [List.mem_eraseDups, Option.isNone_iff_eq_none, definition?_eq_none_iff, Classical.not_not]

theorem indexOf_lt (bound : size ls < Instr.indexLimit) (name : String) : indexOf ls name < Instr.indexLimit := by
  rw [indexOf]
  cases hd : definition? name ls with
  | none => exact Nat.lt_of_le_of_lt (Nat.zero_le _) bound
  | some d => exact Nat.lt_of_le_of_lt (definition?_le hd) bound

/-- Jumps of a short program carry the number of instructions before their label. -/
theorem wordIndex_indexOf (bound : size ls < Instr.indexLimit) (name : String) :
    wordIndex (indexOf ls name) = UInt32.ofNat (indexOf ls name) := wordIndex_eq (indexOf_lt bound name)

theorem assemble_eq (text : List Char) (bound : size (Text.lines text) < Instr.indexLimit) :
    assemble text = assembled (Text.lines text) := by
  rw [assemble, assembled]
  cases he : firstError? [] (Text.lines text) with
  | some e =>
    have h := feedLines_of_firstError agrees_empty he bound
    simp only [List.length_nil, Nat.zero_add] at h
    rw [h]; rfl
  | none =>
    obtain ⟨b, hb, agrees⟩ := feedLines_of_fine agrees_empty he bound
    simp only [List.length_nil, Nat.zero_add] at hb
    rw [hb]
    show b.finish = _
    rw [finish_eq agrees, List.nil_append, funext (wordIndex_indexOf bound)]

/-- The assembler gives what two plain passes give.  A text of fewer than 2^26 instructions is assembled if every line is
    accepted, no label is defined twice and every label that a jump names is defined.  Its program is that of the
    two passes.  A text that is refused is refused for its first wrong line, or else for the undefined labels. -/
theorem assemble_two_pass (text : List Char) (bound : size (Text.lines text) < Instr.indexLimit) :
    ((∃ placed, assemble text = .ok placed) ↔
      (∀ line ∈ Text.lines text, ∃ s?, accept line = .ok s?) ∧ (labels (Text.lines text)).Nodup ∧
        ∀ name ∈ targets (Text.lines text), name ∈ labels (Text.lines text)) ∧
    (∀ placed, assemble text = .ok placed → placed = program (Text.lines text)) ∧
    (∀ e, assemble text = .error e →
      (∃ k line fault, (Text.lines text)[k]? = some line ∧ offence? ((Text.lines text).take k) line = some fault ∧
        (∀ j < k, ∀ l, (Text.lines text)[j]? = some l → offence? ((Text.lines text).take j) l = none) ∧
        e = ⟨some (k + 1), fault⟩) ∨
      (∀ j l, (Text.lines text)[j]? = some l → offence? ((Text.lines text).take j) l = none) ∧
        e = ⟨none, .undefinedLabels (undefined (Text.lines text))⟩) := by
  rw [assemble_eq text bound]
  generalize Text.lines text = ls
  rw [assembled]
  cases he : firstError? [] ls with
  | some e =>
    have wrong : ¬ ((∀ line ∈ ls, ∃ s?, accept line = .ok s?) ∧ (labels ls).Nodup) := by
      rintro ⟨ha, hn⟩
      have none_wrong : firstError? [] ls = none := firstError?_eq_none_iff.2 ⟨ha, hn, fun _ _ => List.not_mem_nil⟩
      rw [none_wrong] at he
      cases he
    refine ⟨?_, ?_, ?_⟩
    · constructor
      · rintro ⟨_, ⟨⟩⟩
      · rintro ⟨ha, hn, _⟩
        exact absurd ⟨ha, hn⟩ wrong
    · rintro _ ⟨⟩
    · rintro _ ⟨⟩
      obtain ⟨k, line, fault, hl, ho, before, rfl⟩ := firstError?_eq_some_iff.1 he
      exact .inl ⟨k, line, fault, hl, ho, before, by simp⟩
  | none =>
    have right := firstError?_eq_none_iff.1 he
    have fine : ∀ j l, ls[j]? = some l → offence? (ls.take j) l = none := by
      intro j
      -- a line with an offence would make a first such line
      induction j using Nat.strongRecOn with
      | ind j ih =>
        intro l hl
        by_contra ho
        obtain ⟨fault, hf⟩ := Option.ne_none_iff_exists'.1 ho
        have first : firstError? [] ls = some ⟨some (([] : List (List Char)).length + j + 1), fault⟩ :=
          firstError?_eq_some_iff.2 ⟨j, l, fault, hl, hf, fun i hi t ht => ih i hi t ht, rfl⟩
        rw [he] at first
        cases first
    show ((∃ placed, finished _ ls = .ok placed) ↔ _) ∧ _
    rw [finished]
    cases hu : undefined ls with
    | nil =>
      refine ⟨?_, ?_, ?_⟩
      · exact ⟨fun _ => ⟨right.1, right.2.1, undefined_eq_nil_iff.1 hu⟩, fun _ => ⟨_, rfl⟩⟩
      · rintro _ ⟨⟩; rfl
      · rintro _ ⟨⟩
    | cons name names =>
      refine ⟨?_, ?_, ?_⟩
      · constructor
        · rintro ⟨_, ⟨⟩⟩
        · rintro ⟨_, _, hd⟩
          rw [undefined_eq_nil_iff.2 hd] at hu
          cases hu
      · rintro _ ⟨⟩
      · rintro _ ⟨⟩
        exact .inr ⟨fine, rfl⟩

/-- Two jumps, one forward and one back, around a pseudo-instruction of ten instructions. -/
theorem assemble_two_pass_jumps :
    let text := "j end\ntop:\nmacro: mul(3, 1, 2)\njal top\nend:".toList
    assemble text = .ok (program (Text.lines text)) ∧ size (Text.lines text) = 12 ∧
      (program (Text.lines text)).head? = some ⟨0, 1, .jump false 12⟩ ∧
      (program (Text.lines text)).getLast? = some ⟨44, 4, .jump true 1⟩ := by
  intro text
  have bound : size (Text.lines text) < Instr.indexLimit := by decide +kernel
  have each : ∀ line ∈ Text.lines text, (accept line).toOption.isSome = true := by decide +kernel
  have accepted : ∀ line ∈ Text.lines text, ∃ s?, accept line = .ok s? := by
    intro line hl
    have some_statement := each line hl
    cases read : accept line with
    | ok s? => exact ⟨s?, rfl⟩
    | error e =>
      rw [read] at some_statement
      cases some_statement
  have once : (labels (Text.lines text)).Nodup := by decide +kernel
  have defined : ∀ name ∈ targets (Text.lines text), name ∈ labels (Text.lines text) := by decide +kernel
  obtain ⟨succeeds, same, -⟩ := assemble_two_pass text bound
  obtain ⟨placed, assembled⟩ := succeeds.2 ⟨accepted, once, defined⟩
  rw [same placed assembled] at assembled
  exact ⟨assembled, by decide +kernel, by decide +kernel, by decide +kernel⟩

end M32.Assembly.TwoPass
