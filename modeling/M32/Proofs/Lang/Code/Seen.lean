/-
  Expressions with a meaning.

  1. `Sees` says that the machine knows the stack pointer, the globals and all words that an activation reaches.
  2. An expression that has a meaning for the activation is found by such a machine with the same type and value, and all that
     is loaded on the way can be accessed (`found_of_eval`, `found_of_find`).
  3. So its code leads to its meaning: `leads_exprCode` and `leads_placeCode`.
-/
import M32.Proofs.Lang.Code.Leads
import M32.Proofs.Lang.Code.Values

namespace M32.Lang

open Machine

/-! ## What expressions see -/

/-- Whether a machine shows what an activation sees of a store. -/
structure Sees (c : Activation) (st : Store) (s : State) : Prop where
  sp : s.reg .sp = c.sp
  bp : s.reg .bp = c.scope.map.globalBase
  word : ∀ a, c.reaches st a = true → CanAccess s a ∧ s.memory.read a = st.word a

/-- Whether code stands in the function that is at work. -/
structure Site.Serves (site : Site) (c : Activation) : Prop where
  scope : site.scope = c.scope
  self : site.self = c.self

/-- Whether a machine finds a type and a word, and can access all that it loads on the way. -/
structure Found.Is (f : Found) (s : State) (found : Ty × Word) : Prop where
  ty : f.ty = found.1
  word : f.word = found.2
  access : ∀ a ∈ f.loads, CanAccess s a

variable {m : Linked} {p : RegPool} {s t : State} {exit : Nat → State → Prop} {site : Site} {c : Activation} {st : Store}
  {ty : Ty} {a w : Word} {f : Found} {found : Ty × Word}

theorem Sees.load (h : Sees c st s) (hl : c.load? st a = some w) : CanAccess s a ∧ s.memory.read a = w := by
  unfold Activation.load? at hl
  split at hl
  · next reaches =>
    cases hl
    exact h.word a reaches
  · cases hl

/-! ## Steps of places -/

namespace Found.Is

/-- A word that the activation loads. -/
theorem load (h : f.Is s (ty, a)) (hs : Sees c st s) (hl : c.load? st a = some w) (ty' : Ty) :
    (f.load (.of s) ty').Is s (ty', w) := by
  obtain ⟨access, word⟩ := hs.load hl
  have address : f.word = a := h.word
  refine ⟨rfl, by rw [Found.load, address]; exact word, ?_⟩
  intro b hb
  rcases List.mem_append.1 hb with hb | hb
  · exact h.access b hb
  · rw [List.eq_of_mem_singleton hb, address]
    exact access

theorem elements? (h : f.Is s (ty, a)) (hs : Sees c st s) (he : c.elements? st (ty, a) = some found) :
    ∃ first, f.elements? (.of s) = some first ∧ first.Is s found := by
  have known : f.ty = ty := h.ty
  rw [Found.elements?, known]
  cases ty with
  | array elem length =>
    cases he
    exact ⟨_, rfl, rfl, h.word, h.access⟩
  | pointer target =>
    obtain ⟨w, hw, he⟩ := Option.bind_eq_some_iff.1 he
    cases he
    exact ⟨_, rfl, h.load hs hw target⟩
  | scalar sc => cases he
  | struct name => cases he

theorem target? (h : f.Is s (ty, a)) (hs : Sees c st s) (he : c.target? st (ty, a) = some found) :
    ∃ g, f.target? (.of s) = some g ∧ g.Is s found := by
  have known : f.ty = ty := h.ty
  rw [Found.target?, known]
  cases ty with
  | pointer target =>
    obtain ⟨w, hw, he⟩ := Option.bind_eq_some_iff.1 he
    cases he
    exact ⟨_, rfl, h.load hs hw target⟩
  | array elem length => cases he
  | scalar sc => cases he
  | struct name => cases he

theorem field? {name : String} (h : f.Is s (ty, a)) (hc : site.Serves c) (he : c.field? name (ty, a) = some found) :
    ∃ g, f.field? site name = some g ∧ g.Is s found := by
  have known : f.ty = ty := h.ty
  have address : f.word = a := h.word
  rw [Found.field?, known, hc.scope]
  cases ty with
  | struct owner =>
    obtain ⟨field, hf, he⟩ := Option.bind_eq_some_iff.1 he
    cases he
    refine ⟨{ f with ty := field.ty, word := f.word + UInt32.ofNat field.offset }, ?_, rfl, ?_, h.access⟩
    · simp only [hf]
      rfl
    · show f.word + _ = _
      rw [address]
  | array elem length => cases he
  | scalar sc => cases he
  | pointer target => cases he

theorem element? {first i : Found} {elem : Ty × Word} {iTy : Ty} (h : first.Is s elem) (hi : i.Is s (iTy, w)) (hc : site.Serves c)
    (he : c.element? elem w = some found) : ∃ g, first.element? site i = some g ∧ g.Is s found := by
  obtain ⟨size, hn, he⟩ := Option.bind_eq_some_iff.1 he
  cases he
  have index : i.word = w := hi.word
  refine ⟨⟨first.ty, first.word + i.word * UInt32.ofNat size, first.loads ++ i.loads⟩, ?_, h.ty, ?_, ?_⟩
  · rw [Found.element?, h.ty, hc.scope]
    simp only [hn]
    rfl
  · show first.word + i.word * _ = _
    rw [h.word, index]
  · intro b hb
    rcases List.mem_append.1 hb with hb | hb
    · exact h.access b hb
    · exact hi.access b hb

/-- A variable lies where the activation says. -/
theorem named? {name : String} (hc : site.Serves c) (hs : Sees c st s) (hv : c.named? name = some found) :
    ∃ f, site.named? (.of s) name = some f ∧ f.Is s found := by
  unfold Activation.named? at hv
  unfold Site.named?
  rw [hc.scope, hc.self]
  cases hf : c.self.frame.find? name with
  | some x =>
    rw [hf] at hv
    cases hv
    refine ⟨_, rfl, rfl, ?_, nofun⟩
    show s.reg .sp + _ = _
    rw [hs.sp, Activation.start, Site.frameBase, hc.self]
    split
    · rw [Nat.zero_add]
    · rw [UInt32.ofNat_add, UInt32.add_assoc]
  | none =>
    cases hg : c.scope.global? name with
    | some x =>
      rw [hf, hg] at hv
      cases hv
      refine ⟨_, rfl, rfl, ?_, nofun⟩
      show s.reg .bp + _ = _
      rw [hs.bp]
    | none =>
      rw [hf, hg] at hv
      cases hv

end Found.Is

/-! ## Expressions and places -/

mutual

/-- A machine finds the value of an expression that has a meaning. -/
theorem found_of_eval (hc : site.Serves c) (hs : Sees c st s) : ∀ (e : Expr) {found : Ty × Word}, e.eval c st = some found →
    ∃ f, e.found site (.of s) = some f ∧ f.Is s found
  | .number value isUnsigned, found, he => by
    unfold Expr.eval at he
    unfold Expr.found
    cases he
    exact ⟨_, rfl, rfl, rfl, nofun⟩
  | .bool value, found, he => by
    unfold Expr.eval at he
    unfold Expr.found
    cases he
    exact ⟨_, rfl, rfl, rfl, nofun⟩
  | .char value, found, he => by
    unfold Expr.eval at he
    unfold Expr.found
    cases he
    exact ⟨_, rfl, rfl, rfl, nofun⟩
  | .place place, found, he => by
    unfold Expr.eval at he
    unfold Expr.found
    obtain ⟨⟨ty, a⟩, hp, he⟩ := Option.bind_eq_some_iff.1 he
    obtain ⟨w, hl, he⟩ := Option.bind_eq_some_iff.1 he
    cases he
    obtain ⟨f, hf, is⟩ := found_of_find hc hs place hp
    refine ⟨f.load (.of s) f.ty, by rw [hf]; rfl, ?_⟩
    have loaded := is.load hs hl f.ty
    rwa [show f.ty = ty from is.ty] at loaded ⊢
  | .unary op operand, found, he => by
    unfold Expr.eval at he
    unfold Expr.found
    obtain ⟨⟨ty, a⟩, ha, he⟩ := Option.bind_eq_some_iff.1 he
    obtain ⟨w, value, he⟩ := Option.bind_eq_some_iff.1 he
    cases he
    obtain ⟨f, hf, is⟩ := found_of_eval hc hs operand ha
    have operand : f.word = a := is.word
    refine ⟨{ f with word := op.word f.word }, by rw [hf]; rfl, is.ty, ?_, is.access⟩
    rw [operand]
    exact UnaryOp.word_of_value? value
  | .binary op left right, found, he => by
    unfold Expr.eval at he
    unfold Expr.found
    obtain ⟨⟨ty, a⟩, ha, he⟩ := Option.bind_eq_some_iff.1 he
    obtain ⟨⟨ty', b⟩, hb, he⟩ := Option.bind_eq_some_iff.1 he
    obtain ⟨w, value, he⟩ := Option.bind_eq_some_iff.1 he
    cases he
    obtain ⟨l, hl, isL⟩ := found_of_eval hc hs left ha
    obtain ⟨r, hr, isR⟩ := found_of_eval hc hs right hb
    have known : l.ty = ty := isL.ty
    have first : l.word = a := isL.word
    have second : r.word = b := isR.word
    refine ⟨⟨op.resultTy l.ty, op.word l.ty l.word r.word, l.loads ++ r.loads⟩, by rw [hl, hr]; rfl, ?_, ?_, ?_⟩
    · rw [known]
    · rw [known, first, second]
      exact BinaryOp.word_of_value? value
    · intro x hx
      rcases List.mem_append.1 hx with hx | hx
      · exact isL.access x hx
      · exact isR.access x hx

/-- A machine finds the address of a place that has a meaning. -/
theorem found_of_find (hc : site.Serves c) (hs : Sees c st s) : ∀ (place : Place) {found : Ty × Word},
    place.find c st = some found → ∃ f, place.found site (.of s) = some f ∧ f.Is s found
  | .var name, found, he => by
    unfold Place.find at he
    unfold Place.found
    exact Found.Is.named? hc hs he
  | .index base i, found, he => by
    unfold Place.find at he
    unfold Place.found
    obtain ⟨⟨ty, b⟩, hf, he⟩ := Option.bind_eq_some_iff.1 he
    obtain ⟨elem, hn, he⟩ := Option.bind_eq_some_iff.1 he
    obtain ⟨⟨iTy, w⟩, hi, he⟩ := Option.bind_eq_some_iff.1 he
    obtain ⟨f, hf, isBase⟩ := found_of_find hc hs base hf
    obtain ⟨first, hn, isFirst⟩ := isBase.elements? hs hn
    obtain ⟨j, hj, isIndex⟩ := found_of_eval hc hs i hi
    obtain ⟨g, hg, is⟩ := isFirst.element? isIndex hc he
    refine ⟨g, ?_, is⟩
    simp only [hf, hn, hj, Option.bind_eq_bind, Option.bind_some, hg]
  | .field base name, found, he => by
    unfold Place.find at he
    unfold Place.found
    obtain ⟨⟨ty, b⟩, hf, he⟩ := Option.bind_eq_some_iff.1 he
    obtain ⟨f, hf, isBase⟩ := found_of_find hc hs base hf
    rw [hf]
    exact isBase.field? hc he
  | .deref base, found, he => by
    unfold Place.find at he
    unfold Place.found
    obtain ⟨⟨ty, b⟩, hf, he⟩ := Option.bind_eq_some_iff.1 he
    obtain ⟨f, hf, isBase⟩ := found_of_find hc hs base hf
    rw [hf]
    exact isBase.target? hs he

end

/-! ## Code -/

theorem leads_offsetCode {dst base : Reg} {offset : Int} {post : Unit → RegPool → State → Prop} (hd : dst ≠ .zero)
    (hb : base ≠ .k1) (h : ∀ t : State, t.memory = s.memory → Only [dst, .k1] s.reg t.reg →
      t.reg dst = s.reg base + Word.ofInt offset → post () p t) : (offsetCode dst base offset).Leads m p s post exit :=
  .of_arrives (arrives_offsetCode hd hb h)

/-- The code of an expression leads to its value. -/
theorem leads_exprCode (hb : c.scope.types.Bounded) (hc : site.Serves c) (e : Expr) {post : Value → RegPool → State → Prop}
    (hp : p.Sound) (hs : Sees c st s) (he : e.eval c st = some (ty, w)) (h : ∀ v q t, Gives p s ty w v q t → post v q t) :
    (exprCode site e).Leads m p s post exit := by
  obtain ⟨f, hf, is⟩ := found_of_eval hc hs e he
  have same : f.ty = ty ∧ f.word = w := ⟨is.ty, is.word⟩
  refine .of_arrives (arrives_exprCode (by rwa [hc.scope]) e hp hf is.access ?_)
  rwa [same.1, same.2]

/-- The code of a place leads to its address. -/
theorem leads_placeCode (hb : c.scope.types.Bounded) (hc : site.Serves c) (place : Place) {post : Value → RegPool → State → Prop}
    (hp : p.Sound) (hs : Sees c st s) (he : place.find c st = some (ty, a)) (h : ∀ v q t, Gives p s ty a v q t → post v q t) :
    (placeCode site place).Leads m p s post exit := by
  obtain ⟨f, hf, is⟩ := found_of_find hc hs place he
  have same : f.ty = ty ∧ f.word = a := ⟨is.ty, is.word⟩
  refine .of_arrives (arrives_placeCode (by rwa [hc.scope]) place hp hf is.access ?_)
  rwa [same.1, same.2]

end M32.Lang
