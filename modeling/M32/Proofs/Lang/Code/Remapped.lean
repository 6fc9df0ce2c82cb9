/-
  The same program on another memory map.

  1. A scope keeps the map without looking at it, so the names of a program mean the same on every map
     (`Scope.ofProgram_onMap`).
  2. Code has the map in words that it loads: the base registers and the limits of checks.  `Line.Alike` lines are the same
     but for such a word, so they have the same sizes, labels and jumps.
  3. `Emit.Alike` code is produced where other code is, with alike lines.  Expressions have the same code on every map,
     statements have alike code, and so has the program (`compileLines_onMap`).
  4. `build_onMap`: a text that is built on one map is built on all, and always into as many words.
-/
import M32.Proofs.Lang.Code.Assembled

namespace M32.Lang

/-! ## Scopes -/

namespace Scope

variable {map : MemoryMap} {s : Scope}

/-- The same names on another memory map. -/
def onMap (s : Scope) (map : MemoryMap) : Scope := { s with map }

theorem addStruct_onMap (s : Scope) (map : MemoryMap) (name : String) (fields : List Decl) :
    (s.onMap map).addStruct name fields = ((s.addStruct name fields).1.onMap map, (s.addStruct name fields).2) := by
  have same : (s.onMap map).types = s.types := rfl
  unfold addStruct
  rw [same]
  cases s.types.declare name with
  | error fault => rfl
  | ok types =>
    cases hd : types.define name fields with
    | error fault => simp only [hd]; rfl
    | ok types => simp only [hd]; rfl

theorem addGlobal_onMap (s : Scope) (map : MemoryMap) (d : Decl) :
    (s.onMap map).addGlobal d = ((s.addGlobal d).1.onMap map, (s.addGlobal d).2) := by
  have same : (s.onMap map).extend ((s.onMap map).globals?.getD {}) [d] = s.extend (s.globals?.getD {}) [d] := rfl
  unfold addGlobal
  simp only [same]
  cases s.extend (s.globals?.getD {}) [d] with
  | error fault => rfl
  | ok globals => rfl

/-- Definitions mean the same on every map. -/
theorem add_onMap (s : Scope) (map : MemoryMap) (d : Def) :
    (s.onMap map).add d = ((s.add d).1.onMap map, (s.add d).2) := by
  cases d with
  | struct name fields => simp only [add, addStruct_onMap]
  | global d => simp only [add, addGlobal_onMap]
  | function f =>
    have same : (s.onMap map).signature f = s.signature f := rfl
    simp only [add, same]
    cases s.signature f with
    | error e => rfl
    | ok sig => rfl

theorem addAll_onMap (s : Scope) (map : MemoryMap) (ds : List Def) :
    (s.onMap map).addAll ds = ((s.addAll ds).1.onMap map, (s.addAll ds).2) := by
  induction ds generalizing s with
  | nil => rfl
  | cons d ds ih =>
    rw [addAll, addAll, add_onMap]
    rcases s.add d with ⟨next, fault?⟩
    cases fault? with
    | none => exact ih next
    | some e => rfl

/-- The names of a program mean the same on every map. -/
theorem ofProgram_onMap {p : Program} (h : ofProgram map p = .ok s) (map' : MemoryMap) :
    ofProgram map' p = .ok (s.onMap map') := by
  obtain ⟨all, entry⟩ := ofProgram_eq_ok_iff.1 h
  refine ofProgram_eq_ok_iff.2 ⟨?_, entry⟩
  rw [show ({ map := map' } : Scope) = ({ map } : Scope).onMap map' from rfl, addAll_onMap, all]

end Scope

/-! ## Alike lines -/

/-- Whether two lines are the same, but for an unsigned word that they load. -/
inductive Line.Alike : Line → Line → Prop
  | refl (l : Line) : Alike l l
  | loads (r : Reg) (v w : Word) : Alike (.pseudo (.gpr r v .uint)) (.pseudo (.gpr r w .uint))

namespace Line.Alike

variable {l m : Line}

theorem size_eq (h : Alike l m) : m.size = l.size := by
  cases h <;> rfl

theorem readable (h : Alike l m) (hl : l.IsReadable) : m.IsReadable := by
  cases h with
  | refl => exact hl
  | loads r v w => trivial

end Line.Alike

/-- Whether some lines are alike, one by one. -/
def CodeAlike : List Line → List Line → Prop := List.Forall₂ Line.Alike

namespace CodeAlike

variable {a b : List Line}

theorem cons {l m : Line} (first : l.Alike m) (rest : CodeAlike a b) : CodeAlike (l :: a) (m :: b) :=
  List.Forall₂.cons first rest

theorem refl (code : List Line) : CodeAlike code code := List.forall₂_same.2 fun l _ => .refl l

theorem append {c d : List Line} (h : CodeAlike a b) (h' : CodeAlike c d) : CodeAlike (a ++ c) (b ++ d) :=
  List.rel_append h h'

theorem codeSize_eq (h : CodeAlike a b) : codeSize b = codeSize a := by
  induction h with
  | nil => rfl
  | cons first _ ih => rw [codeSize_cons, codeSize_cons, first.size_eq, ih]

theorem readable (h : CodeAlike a b) (ha : ∀ l ∈ a, l.IsReadable) : ∀ l ∈ b, l.IsReadable := by
  induction h with
  | nil => exact ha
  | cons first _ ih =>
    obtain ⟨h1, h2⟩ := List.forall_mem_cons.1 ha
    exact List.forall_mem_cons.2 ⟨first.readable h1, ih h2⟩

theorem take (h : CodeAlike a b) (k : Nat) : CodeAlike (a.take k) (b.take k) := List.forall₂_take k h

/-- Alike lines have their labels at the same places. -/
theorem label (h : CodeAlike a b) {k : Nat} {name : String} (hk : b[k]? = some (.label name)) : a[k]? = some (.label name) := by
  induction h generalizing k with
  | nil => exact hk
  | cons first _ ih =>
    cases k with
    | succ k => exact ih hk
    | zero =>
      cases hk
      cases first
      rfl

end CodeAlike

/-! ## Alike code -/

namespace Emit

variable {α β : Type}

/-- Whether code may stand for other code: where that is produced so is this, with the same value, alike lines and the same
    registers in use after them. -/
def Alike (x y : Emit α) : Prop :=
  ∀ p r, x p = .ok r → ∃ code, y p = .ok ⟨r.value, code, r.pool⟩ ∧ CodeAlike r.code code

namespace Alike

theorem refl (x : Emit α) : Alike x x := fun _ r h => ⟨r.code, h, .refl _⟩

theorem lines {a b : List Line} (h : CodeAlike a b) : Alike (lines a) (lines b) := by
  intro p r hr
  cases (lines_eq_ok_iff a r).1 hr
  exact ⟨b, rfl, h⟩

theorem bind {x y : Emit α} {f g : α → Emit β} (hx : Alike x y) (hf : ∀ a, Alike (f a) (g a)) :
    Alike (x >>= f) (y >>= g) := by
  intro p r hr
  obtain ⟨a, b, ha, hb, rfl⟩ := (bind_eq_ok_iff x f p r).1 hr
  obtain ⟨first, hy, same⟩ := hx p a ha
  obtain ⟨second, hg, same'⟩ := hf a.value a.pool b hb
  exact ⟨first ++ second, (bind_eq_ok_iff y g p _).2 ⟨_, _, hy, hg, rfl⟩, same.append same'⟩

theorem ite {c : Prop} [Decidable c] {x y x' y' : Emit α} (hx : Alike x x') (hy : Alike y y') :
    Alike (if c then x else y) (if c then x' else y') := by
  split
  · exact hx
  · exact hy

/-- Code that places captured code is alike if it is for all alike code in that place. -/
theorem bind_capture {x y : Emit α} {f g : α × List Line → Emit β} (hx : Alike x y)
    (hf : ∀ a code code', CodeAlike code code' → Alike (f (a, code)) (g (a, code'))) :
    Alike (Emit.capture x >>= f) (Emit.capture y >>= g) := by
  intro p r hr
  obtain ⟨_, b, ha, hb, rfl⟩ := (bind_eq_ok_iff _ _ _ _).1 hr
  obtain ⟨c, hc, rfl⟩ := (capture_eq_ok_iff _ _).1 ha
  obtain ⟨code, hy, same⟩ := hx p c hc
  obtain ⟨rest, hg, same'⟩ := hf c.value c.code code same c.pool b hb
  exact ⟨rest, (bind_eq_ok_iff _ _ _ _).2 ⟨_, _, (capture_eq_ok_iff _ _).2 ⟨_, hy, rfl⟩, hg, rfl⟩, same'⟩

theorem bind_captureRetaining {x y : Emit Unit} {c : Reg} {f g : List Line → Emit β} (hx : Alike x y)
    (hf : ∀ code code', CodeAlike code code' → Alike (f code) (g code')) :
    Alike (Emit.captureRetaining c x >>= f) (Emit.captureRetaining c y >>= g) := by
  intro p r hr
  obtain ⟨_, b, ha, hb, rfl⟩ := (bind_eq_ok_iff _ _ _ _).1 hr
  obtain ⟨d, hd, rfl⟩ := (captureRetaining_eq_ok_iff _ _ _).1 ha
  obtain ⟨code, hy, same⟩ := hx _ d hd
  obtain ⟨rest, hg, same'⟩ := hf d.code code same _ b hb
  exact ⟨rest, (bind_eq_ok_iff _ _ _ _).2 ⟨_, _, (captureRetaining_eq_ok_iff _ _ _).2 ⟨_, hy, rfl⟩, hg, rfl⟩, same'⟩

end Alike

end Emit

open Emit (Alike)

/-! ## Expressions and places -/

/-- The same site on another memory map. -/
def Site.onMap (site : Site) (map : MemoryMap) : Site := { site with scope := site.scope.onMap map }

section

variable (map : MemoryMap) (site : Site)

mutual

theorem exprCode_onMap (site : Site) : ∀ e : Expr, exprCode (site.onMap map) e = exprCode site e
  | .number value isUnsigned => by
    unfold exprCode
    rfl
  | .bool value => by
    unfold exprCode
    rfl
  | .char value => by
    unfold exprCode
    rfl
  | .place p => by
    unfold exprCode
    rw [placeCode_onMap site p]
    rfl
  | .unary op operand => by
    unfold exprCode
    rw [exprCode_onMap site operand]
    rfl
  | .binary op left right => by
    unfold exprCode
    rw [exprCode_onMap site left, exprCode_onMap site right]
    rfl

theorem placeCode_onMap (site : Site) : ∀ p : Place, placeCode (site.onMap map) p = placeCode site p
  | .var name => by
    unfold placeCode
    rfl
  | .index base i => by
    unfold placeCode
    rw [placeCode_onMap site base, exprCode_onMap site i]
    rfl
  | .field base name => by
    unfold placeCode
    rw [placeCode_onMap site base]
    rfl
  | .deref base => by
    unfold placeCode
    rw [placeCode_onMap site base]
    rfl

end

/-! ## Statements without checks -/

theorem condCode_onMap (cond : Expr) : condCode (site.onMap map) cond = condCode site cond := by
  unfold condCode
  rw [exprCode_onMap]
  rfl

theorem exitCode_onMap (value : Option Expr) : exitCode (site.onMap map) value = exitCode site value := by
  unfold exitCode
  simp only [exprCode_onMap]

theorem resultCode_onMap (e : Expr) : resultCode (site.onMap map) e = resultCode site e := by
  unfold resultCode
  rw [exprCode_onMap]
  rfl

theorem returnCode_onMap (value : Option Expr) : returnCode (site.onMap map) value = returnCode site value := by
  have self : (site.onMap map).self = site.self := rfl
  have exit : exitCode (site.onMap map) = exitCode site := funext (exitCode_onMap map site)
  have result : resultCode (site.onMap map) = resultCode site := funext (resultCode_onMap map site)
  rw [returnCode, returnCode, exit, result, self]

theorem assignCode_onMap (target : Place) (e : Expr) : assignCode (site.onMap map) target e = assignCode site target e := by
  unfold assignCode
  rw [exprCode_onMap, placeCode_onMap]
  rfl

theorem wordPlaceCode_onMap (p : Place) : wordPlaceCode (site.onMap map) p = wordPlaceCode site p := by
  unfold wordPlaceCode
  rw [placeCode_onMap]
  rfl

theorem toGprCode_onMap (n : Nat) (source : Place) (spared : List Nat) :
    toGprCode (site.onMap map) n source spared = toGprCode site n source spared := by
  unfold toGprCode
  rw [wordPlaceCode_onMap]
  rfl

theorem fromGprCode_onMap (target : Place) (n : Nat) (spared : List Nat) :
    fromGprCode (site.onMap map) target n spared = fromGprCode site target n spared := by
  unfold fromGprCode
  rw [wordPlaceCode_onMap]
  rfl

theorem destinationCode_onMap (callee : Signature) (target : Option Place) :
    destinationCode (site.onMap map) callee target = destinationCode site callee target := by
  unfold destinationCode
  simp only [placeCode_onMap]
  rfl

theorem argsCode_onMap (args : List Expr) (params : List Var) :
    argsCode (site.onMap map) args params = argsCode site args params := by
  induction args generalizing params with
  | nil => rfl
  | cons e es ih =>
    cases params with
    | nil => rfl
    | cons param params =>
      rw [argsCode, argsCode, exprCode_onMap]
      simp only [ih]
      rfl

/-! ## Statements with checks -/

theorem alike_load (r : Reg) (v w : Word) : Alike (Emit.pseudo (.gpr r v .uint)) (Emit.pseudo (.gpr r w .uint)) :=
  .lines (.cons (.loads r v w) (.refl []))

theorem alike_stackCheckCode (map map' : MemoryMap) : Alike (stackCheckCode map) (stackCheckCode map') :=
  (alike_load _ _ _).bind fun _ => .refl _

theorem alike_heapCheckCode (map map' : MemoryMap) : Alike (heapCheckCode map) (heapCheckCode map') :=
  (alike_load _ _ _).bind fun _ => .refl _

theorem alike_prologueCode : Alike (prologueCode site) (prologueCode (site.onMap map)) :=
  .ite (.ite (Alike.bind (.refl _) fun _ => alike_stackCheckCode _ _) (.refl _)) (.refl _)

theorem alike_newCode (target : Place) (ty : Ty) : Alike (newCode site target ty) (newCode (site.onMap map) target ty) := by
  unfold newCode
  rw [placeCode_onMap]
  exact .bind (.refl _) fun _ => .bind (.refl _) fun _ => .bind (.refl _) fun _ => .bind (.refl _) fun _ =>
    .bind (.refl _) fun _ => alike_heapCheckCode _ _

theorem alike_callCode (c : Call) (target : Option Place) : Alike (callCode site c target) (callCode (site.onMap map) c target) := by
  unfold callCode
  simp only [destinationCode_onMap, argsCode_onMap]
  exact .bind (.refl _) fun _ => .ite (.refl _) <| .bind (.refl _) fun _ => .ite (.refl _) <| .bind (.refl _) fun _ =>
    .bind (.refl _) fun _ => (alike_stackCheckCode _ _).bind fun _ => .refl _

/-! ## Loops and branches -/

variable {body body' other other' : Emit Unit}

/-- Branches pass as many instructions, so they are the same. -/
theorem alike_whileCode (cond : Expr) (h : Alike body body') :
    Alike (whileCode site cond body) (whileCode (site.onMap map) cond body') := by
  unfold whileCode
  rw [condCode_onMap]
  refine .bind (.refl _) fun (c, test) => .bind_captureRetaining h fun inside inside' same => ?_
  rw [same.codeSize_eq]
  exact .bind (.refl _) fun out => .bind (.refl _) fun back =>
    .lines (.append (.append (.refl test) (.cons (.refl _) same)) (.refl _))

theorem alike_ifThenCode (cond : Expr) (h : Alike body body') :
    Alike (ifThenCode site cond body) (ifThenCode (site.onMap map) cond body') := by
  unfold ifThenCode
  rw [condCode_onMap]
  refine .bind (.refl _) fun (c, test) => .bind_captureRetaining h fun inside inside' same => ?_
  rw [same.codeSize_eq]
  exact .bind (.refl _) fun past => .lines (.append (.refl test) (.cons (.refl _) same))

theorem alike_ifElseCode (cond : Expr) (h : Alike body body') (ho : Alike other other') :
    Alike (ifElseCode site cond body other) (ifElseCode (site.onMap map) cond body' other') := by
  unfold ifElseCode
  rw [condCode_onMap]
  refine .bind (.refl _) fun (c, test) => .bind_captureRetaining h fun inside inside' same =>
    .bind_capture ho fun _ otherwise otherwise' same' => ?_
  simp only [same.codeSize_eq, same'.codeSize_eq]
  exact .bind (.refl _) fun past => .bind (.refl _) fun around =>
    .lines (.append (.append (.refl test) (.cons (.refl _) same)) (.cons (.refl _) same'))

mutual

theorem alike_stmtCode (site : Site) : ∀ s : Stmt, Alike (stmtCode site s) (stmtCode (site.onMap map) s)
  | .while cond body => by
    unfold stmtCode
    exact alike_whileCode map site cond (alike_stmtsCode site body)
  | .ifThen cond body => by
    unfold stmtCode
    exact alike_ifThenCode map site cond (alike_stmtsCode site body)
  | .ifElse cond body other => by
    unfold stmtCode
    exact alike_ifElseCode map site cond (alike_stmtsCode site body) (alike_stmtsCode site other)
  | .return value => by
    unfold stmtCode
    rw [returnCode_onMap]
    exact .refl _
  | .toGpr reg source spared => by
    unfold stmtCode
    rw [toGprCode_onMap]
    exact .refl _
  | .fromGpr target reg spared => by
    unfold stmtCode
    rw [fromGprCode_onMap]
    exact .refl _
  | .call c => by
    unfold stmtCode
    exact alike_callCode map site c none
  | .assign target (.call c) => by
    unfold stmtCode
    exact alike_callCode map site c (some target)
  | .assign target (.new ty) => by
    unfold stmtCode
    exact alike_newCode map site target ty
  | .assign target (.expr e) => by
    unfold stmtCode
    rw [assignCode_onMap]
    exact .refl _

theorem alike_stmtsCode (site : Site) : ∀ ss : List Stmt, Alike (stmtsCode site ss) (stmtsCode (site.onMap map) ss)
  | [] => by
    unfold stmtsCode
    exact .refl _
  | s :: rest => by
    unfold stmtsCode
    exact (alike_stmtCode (site.saying s.text) s).bind fun _ => .bind (.refl _) fun _ => alike_stmtsCode site rest

end

theorem alike_bodyCode (body : List Stmt) : Alike (bodyCode site body) (bodyCode (site.onMap map) body) := by
  unfold bodyCode
  rw [returnCode_onMap]
  exact (alike_prologueCode map site).bind fun _ => (alike_stmtsCode map site body).bind fun _ => .refl _

end

/-! ## Programs -/

section

variable {scope : Scope} {f : Function} {fs : List Function} {pieces : List (List Line)}

theorem isCodeOf_onMap {piece : List Line} (h : IsCodeOf scope f piece) (map : MemoryMap) :
    ∃ piece', IsCodeOf (scope.onMap map) f piece' ∧ CodeAlike piece piece' := by
  obtain ⟨self, hs, hc⟩ := h
  obtain ⟨r, hr, rfl⟩ := functionCode_eq_ok hc
  obtain ⟨code, hr', same⟩ := alike_bodyCode map { scope, self } f.body _ r hr
  refine ⟨.label self.name :: code, ⟨self, hs, ?_⟩, .cons (.refl _) same⟩
  have body : bodyCode { scope := scope.onMap map, self } f.body {} = .ok ⟨r.value, code, r.pool⟩ := hr'
  rw [functionCode, body]
  rfl

theorem pieces_onMap (h : List.Forall₂ (IsCodeOf scope) fs pieces) (map : MemoryMap) :
    ∃ pieces', List.Forall₂ (IsCodeOf (scope.onMap map)) fs pieces' ∧ CodeAlike pieces.flatten pieces'.flatten := by
  induction h with
  | nil => exact ⟨[], .nil, .refl _⟩
  | cons first _ ih =>
    obtain ⟨piece', first', same⟩ := isCodeOf_onMap first map
    obtain ⟨pieces', rest', same'⟩ := ih
    exact ⟨piece' :: pieces', .cons first' rest', same.append same'⟩

/-- Pieces of code for some functions are their code. -/
theorem functionsCode_of_pieces (h : List.Forall₂ (IsCodeOf scope) fs pieces) :
    functionsCode scope fs = .ok pieces.flatten := by
  induction h with
  | nil => rfl
  | cons first _ ih =>
    obtain ⟨self, hs, hc⟩ := first
    rw [functionsCode, hs, ih]
    simp only [hc, Except.mapError, bind, Except.bind]
    rfl

theorem alike_startCode (map map' : MemoryMap) : CodeAlike (startCode map) (startCode map') :=
  .cons (.loads _ _ _) (.cons (.loads _ _ _) (.cons (.loads _ _ _) (.refl _)))

/-- A program that compiles has alike code on every map. -/
theorem programCode_onMap {p : Program} {code : List Line} (h : programCode scope p = .ok code) (map : MemoryMap) :
    ∃ code', programCode (scope.onMap map) p = .ok code' ∧ CodeAlike code code' := by
  obtain ⟨pieces, hp, rfl⟩ := programCode_eq_ok h
  obtain ⟨pieces', hp', same⟩ := pieces_onMap hp map
  refine ⟨startCode map ++ pieces'.flatten, ?_, (alike_startCode _ _).append same⟩
  rw [programCode, functionsCode_of_pieces hp']
  rfl

end

section

variable {file : String} {cs : List Char} {map : MemoryMap} {code : List Line}

theorem compileLines_onMap (h : compileLines file cs map = .ok code) (map' : MemoryMap) :
    ∃ code', compileLines file cs map' = .ok code' ∧ CodeAlike code code' := by
  obtain ⟨p, scope, hp, hs, hc⟩ := compileLines_eq_ok h
  obtain ⟨code', hc', same⟩ := programCode_onMap hc map'
  refine ⟨code', ?_, same⟩
  simp only [compileLines, hp, Scope.ofProgram_onMap hs map', bind, Except.bind]
  exact hc'

/-! ## Images -/

/-- A text that is built on one map is built on every map, into as many words. -/
theorem build_onMap {asm : String} {words : List Word} (h : build file cs map = .ok (asm, words)) (map' : MemoryMap) :
    ∃ asm' words', build file cs map' = .ok (asm', words') ∧ words'.length = words.length := by
  obtain ⟨code, placed, hc, ha, -, rfl⟩ := build_eq_ok_iff.1 h
  obtain ⟨code', hc', same⟩ := compileLines_onMap hc map'
  obtain ⟨readable, reach⟩ := (assemble_compiled_iff hc).1 ⟨placed, ha⟩
  obtain ⟨placed', ha'⟩ := (assemble_compiled_iff hc').2 ⟨same.readable readable, fun k name hk => by
    rw [(same.take k).codeSize_eq]
    exact reach k name (same.label hk)⟩
  refine ⟨renderCode code', placed'.map Assembly.Placed.word, build_eq_ok_iff.2 ⟨code', placed', hc', ha', rfl, rfl⟩, ?_⟩
  rw [List.length_map, List.length_map, length_of_assembled hc' ha', length_of_assembled hc ha, same.codeSize_eq]

end

end M32.Lang
