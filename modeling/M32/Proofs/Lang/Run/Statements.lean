/-
  Statements in a row.

  1. The code of every statement has an instruction at least (`Emit.HasCode`), so a step of the machine stands behind every
     unit of fuel.
  2. `carries_stmtCode` is the step from a fuel to the next for a statement, and `carried` the induction: code for rows of
     statements does what they do, with any fuel.
-/
import M32.Proofs.Lang.Run.Branches

namespace M32.Lang

open Machine

/-! ## Code that is not empty -/

namespace Emit

variable {α β : Type}

/-- Whether a piece of code has an instruction at least. -/
def HasCode (x : Emit α) : Prop := ∀ p r, x p = .ok r → 0 < codeSize r.code

namespace HasCode

theorem fail {fault : Fault} : (Emit.fail fault : Emit α).HasCode := fun _ r hr => absurd hr (fail_ne_ok fault r)

theorem instr {i : Instr} : (Emit.instr i).HasCode := fun p r hr => by
  cases (instr_eq_ok_iff i r).1 hr
  exact Nat.one_pos

theorem ite {c : Prop} [Decidable c] {x y : Emit α} (hx : x.HasCode) (hy : y.HasCode) : (if c then x else y).HasCode := by
  split
  · exact hx
  · exact hy

theorem before {x : Emit β} {f : β → Emit α} (h : x.HasCode) : (x >>= f).HasCode := fun p r hr => by
  obtain ⟨a, b, ha, -, rfl⟩ := (bind_eq_ok_iff x f p r).1 hr
  rw [codeSize_append]
  exact Nat.add_pos_left (h p a ha) _

theorem after {x : Emit β} {f : β → Emit α} (h : ∀ b, (f b).HasCode) : (x >>= f).HasCode := fun p r hr => by
  obtain ⟨a, b, -, hb, rfl⟩ := (bind_eq_ok_iff x f p r).1 hr
  rw [codeSize_append]
  exact Nat.add_pos_right _ (h a.value a.pool b hb)

end HasCode

end Emit

variable {m : Linked} {c : Activation} {st : Store} {s : State} {p : RegPool} {site : Site} {ret fuel : Nat} {program : Program}

theorem hasCode_returnCode (value : Option Expr) : (returnCode site value).HasCode := by
  unfold returnCode exitCode
  cases value with
  | none => exact .ite (.before .instr) (.before .instr)
  | some e => exact .ite (.after fun _ => .before .instr) (.after fun _ => .before .instr)

theorem hasCode_callCode (callee : Call) (target : Option Place) : (callCode site callee target).HasCode :=
  .after fun _ => .ite .fail (.after fun _ => .ite .fail (.after fun _ => .after fun _ => .after fun _ => .before .instr))

/-- Statements other than copies from and to registers have code. -/
theorem hasCode_stmtCode {stmt : Stmt} (meant : (∀ reg source spared, stmt ≠ .toGpr reg source spared) ∧
    ∀ target reg spared, stmt ≠ .fromGpr target reg spared) : (stmtCode site stmt).HasCode := by
  unfold stmtCode
  cases stmt with
  | «while» cond body =>
    intro p r hr
    obtain ⟨a, b, -, -, -, -, he⟩ := whileCode_eq_ok hr
    rw [he, codeSize_append, codeSize_cons, Line.size]
    omega
  | ifThen cond body =>
    intro p r hr
    obtain ⟨a, b, -, -, -, he⟩ := ifThenCode_eq_ok hr
    rw [he, codeSize_append, codeSize_cons, Line.size]
    omega
  | ifElse cond body other =>
    intro p r hr
    obtain ⟨a, b, d, -, -, -, -, -, he⟩ := ifElseCode_eq_ok hr
    rw [he, codeSize_append, codeSize_cons, Line.size]
    omega
  | «return» value => exact hasCode_returnCode value
  | toGpr reg source spared => exact absurd rfl (meant.1 reg source spared)
  | fromGpr target reg spared => exact absurd rfl (meant.2 target reg spared)
  | call callee => exact hasCode_callCode callee none
  | assign target source =>
    cases source with
    | call callee => exact hasCode_callCode callee (some target)
    | new ty => exact .after fun _ => .after fun _ => .after fun _ => .before .instr
    | expr e => exact .after fun _ => .after fun _ => .after fun _ => .instr

/-! ## Statements -/

/-- Code for a statement does what it does with a unit of fuel more than rows of statements have. -/
theorem carries_stmtCode (stmt : Stmt) (placed : c.Placed) (fits : m.Fits c.scope) (hc : site.Serves c) (hp : p.Sound) (h : Matches c st s)
    (links : c.self.isEntry = false → Links c ret s) (compiled : m.Compiled c.scope program)
    (rows : Carried m c.scope program fuel) (again : site.saying stmt.text = site) :
    Carries m c ret (stmtCode site stmt) p s (fuel + 1) (stmt.exec program (runStmts program fuel) c st) := by
  unfold stmtCode
  cases stmt with
  | «while» cond body => exact carries_whileCode placed fits hc hp h links rows again
  | ifThen cond body => exact carries_ifThenCode placed fits hc hp h links rows
  | ifElse cond body other => exact carries_ifElseCode placed fits hc hp h links rows
  | «return» value => exact carries_returnCode placed fits hc hp h links
  | toGpr reg source spared => exact .stuck
  | fromGpr target reg spared => exact .stuck
  | call callee => exact carries_callCode placed fits hc hp h compiled rows
  | assign target source =>
    cases source with
    | call callee => exact carries_callCode placed fits hc hp h compiled rows
    | new ty => exact carries_newCode placed fits hc hp h
    | expr e => exact carries_assignCode placed fits hc hp h

/-- Code for rows of statements does what they do, with any fuel. -/
theorem carried {scope : Scope} (fits : m.Fits scope) (compiled : m.Compiled scope program) (fuel : Nat) :
    Carried m scope program fuel := by
  induction fuel with
  | zero => exact fun c ret st s p site stmts _ _ _ _ _ _ r k _ _ _ => .inr ⟨0, 0, s, .refl s, Nat.le_refl 0, Nat.zero_le 0⟩
  | succ fuel ih =>
    rintro c ret st s p site stmts rfl placed hc hp h links
    cases stmts with
    | nil =>
      unfold stmtsCode
      exact .pure ⟨st, rfl, h, .of_memory rfl⟩
    | cons stmt rest =>
      show Carries m c ret _ p s (fuel + 1)
        ((stmt.exec program (runStmts program fuel) c st).andThen fun st => runStmts program fuel c st rest)
      by_cases meant : (∀ reg source spared, stmt ≠ .toGpr reg source spared) ∧
          ∀ target reg spared, stmt ≠ .fromGpr target reg spared
      · unfold stmtsCode
        have serves : (site.saying stmt.text).Serves c := ⟨hc.scope, hc.self⟩
        have first := carries_stmtCode stmt placed fits serves hp h links compiled ih rfl
        -- the rest has a unit of fuel less, but starts a step later
        refine Emit.Leads.seq_later (fun j t => Exits m c ret s fuel _ j t) (.mono first ?_ ?_)
          (hasCode_stmtCode meant p) fun j t left => left.earlier (.of_memory rfl) (by omega)
        · rintro - q t ⟨st', came, ht, spares⟩
          rw [came]
          have links := linked_after links placed spares
          refine .seq (.registers (.mono (ih c ret st' t _ site rest rfl placed hc (RegPool.sound_endStatement q) ht links) ?_ ?_))
          · rintro - q' u ⟨st'', came', hu, spares'⟩
            exact ⟨st'', came', hu, spares.trans spares'⟩
          · exact fun j u left => left.earlier spares (Nat.le_refl _)
        · exact fun j t left => left.andThen
      · have stuck : stmt.exec program (runStmts program fuel) c st = .stuck := by
          cases stmt with
          | toGpr reg source spared => rfl
          | fromGpr target reg spared => rfl
          | _ => exact absurd ⟨nofun, nofun⟩ meant
        rw [stuck]
        exact .stuck

end M32.Lang
