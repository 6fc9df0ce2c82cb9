/-
  Where generated code leads that may be left.

  1. `Emit.Leads` is the weakest precondition of a piece of code in an image: started where its instructions lie, the machine
     comes to the instruction after them with some value, registers in use and state, unless it leaves the code before.
  2. Code that computes leads to its end (`Arrives.leads`).  Pieces in a row have a lemma (`Leads.seq`), and so have the pieces
     that store, clear memory or call a function.
-/
import M32.Proofs.Lang.Code.Arrives
import M32.Proofs.Pseudo.Zeros

namespace M32.Lang

open Machine

namespace Emit

variable {α β : Type} {m : Linked} {p : RegPool} {s : State} {exit : Nat → State → Prop}

/-- Whether a piece of code leads to its end with some value, registers in use and state, unless it exits after so many
    steps or more. -/
def Leads (m : Linked) (x : Emit α) (p : RegPool) (s : State) (post : α → RegPool → State → Prop)
    (exit : Nat → State → Prop) : Prop :=
  ∀ r k, x p = .ok r → At m.image k s → m.Has k r.code →
    (∃ n t, Runs n s t ∧ At m.image (k + codeSize r.code) t ∧ post r.value r.pool t) ∨
    ∃ n j t, Runs n s t ∧ j ≤ n ∧ exit j t

namespace Leads

theorem mono {x : Emit α} {post post' : α → RegPool → State → Prop} {exit' : Nat → State → Prop} (h : x.Leads m p s post exit)
    (hp : ∀ a q t, post a q t → post' a q t) (he : ∀ j t, exit j t → exit' j t) : x.Leads m p s post' exit' := by
  intro r k hr hk hc
  rcases h r k hr hk hc with ⟨n, t, runs, at_end, holds⟩ | ⟨n, j, t, runs, late, left⟩
  · exact .inl ⟨n, t, runs, at_end, hp _ _ _ holds⟩
  · exact .inr ⟨n, j, t, runs, late, he j t left⟩

/-- What holds of every value that a piece of code has may be used. -/
theorem with_value {x : Emit α} {post : α → RegPool → State → Prop} {good : α → Prop} (hx : x.Yields good)
    (h : x.Leads m p s (fun a q t => good a → post a q t) exit) : x.Leads m p s post exit := by
  intro r k hr hk hc
  rcases h r k hr hk hc with ⟨n, t, runs, at_end, holds⟩ | out
  · exact .inl ⟨n, t, runs, at_end, holds (hx p r hr)⟩
  · exact .inr out

/-- What holds of every state that is about to carry out an instruction may be used. -/
theorem of_zero {x : Emit α} {post : α → RegPool → State → Prop} (h : s.reg .zero = 0 → x.Leads m p s post exit) :
    x.Leads m p s post exit := fun r k hr hk hc => h hk.zero r k hr hk hc

/-- Pieces in a row: the first leads to where the second leads to the end. -/
theorem seq {x : Emit α} {f : α → Emit β} {post : β → RegPool → State → Prop}
    (hx : x.Leads m p s (fun a q t => (f a).Leads m q t post exit) exit) : (x >>= f).Leads m p s post exit := by
  intro r k hr hk hc
  obtain ⟨a, b, ha, hb, rfl⟩ := (bind_eq_ok_iff x f p r).1 hr
  obtain ⟨first, second⟩ := hc.append
  rcases hx a k ha hk first with ⟨n, t, runs, at_end, rest⟩ | out
  · rcases rest b _ hb at_end second with ⟨n', u, runs', at_end', holds'⟩ | ⟨n', j, u, runs', late, left⟩
    · refine .inl ⟨n + n', u, runs.trans runs', ?_, holds'⟩
      rw [codeSize_append, ← Nat.add_assoc]
      exact at_end'
    · exact .inr ⟨n + n', j, u, runs.trans runs', by omega, left⟩
  · exact .inr out

theorem forM_cons {f : β → Emit Unit} {b : β} {bs : List β} {post : Unit → RegPool → State → Prop}
    (h : (f b).Leads m p s (fun _ q t => Leads (α := Unit) m (bs.forM f) q t post exit) exit) :
    Leads (α := Unit) m ((b :: bs).forM f) p s post exit := seq h

/-- A piece with instructions takes a step at least. -/
theorem seq_later {x : Emit α} {f : α → Emit β} {post : β → RegPool → State → Prop} (later : Nat → State → Prop)
    (hx : x.Leads m p s (fun a q t => (f a).Leads m q t post later) exit)
    (some_code : ∀ r, x p = .ok r → 0 < codeSize r.code) (hl : ∀ j t, later j t → exit (j + 1) t) :
    (x >>= f).Leads m p s post exit := by
  intro r k hr hk hc
  obtain ⟨a, b, ha, hb, rfl⟩ := (bind_eq_ok_iff x f p r).1 hr
  obtain ⟨first, second⟩ := hc.append
  rcases hx a k ha hk first with ⟨n, t, runs, at_end, rest⟩ | out
  · have pos : 0 < n := by
      have size := some_code a ha
      have length := length_instrsOf m.index a.code
      have inside := Lies.length_le first (by omega)
      exact runs.pos_of_ne hk at_end (by omega) (by omega)
    rcases rest b _ hb at_end second with ⟨n', u, runs', at_end', holds'⟩ | ⟨n', j, u, runs', late, left⟩
    · refine .inl ⟨n + n', u, runs.trans runs', ?_, holds'⟩
      rw [codeSize_append, ← Nat.add_assoc]
      exact at_end'
    · exact .inr ⟨n + n', j + 1, u, runs.trans runs', by omega, hl j u left⟩
  · exact .inr out

/-- Code that computes leads to its end. -/
theorem of_arrives {x : Emit α} {post : α → RegPool → State → Prop} (h : x.Arrives m 0 p s post) : x.Leads m p s post exit := by
  intro r k hr hk hc
  obtain ⟨t, ht, holds⟩ := h r k hr hk.inside hc
  have computed := ht.computes hk
  obtain ⟨n, runs⟩ := computed.runs
  exact .inl ⟨n, t, runs, computed.at_end, holds⟩

/-! ### Pieces without instructions -/

theorem pure {a : α} {post : α → RegPool → State → Prop} (h : post a p s) : (Pure.pure a : Emit α).Leads m p s post exit :=
  of_arrives (.pure h)

theorem ofExcept {e : Except Fault α} {post : α → RegPool → State → Prop} (h : ∀ a, e = .ok a → post a p s) :
    (ofExcept e).Leads m p s post exit := of_arrives (.ofExcept h)

theorem fail {fault : Fault} {post : α → RegPool → State → Prop} : (Emit.fail fault : Emit α).Leads m p s post exit :=
  of_arrives .fail

theorem ite {c : Prop} [Decidable c] {x y : Emit α} {post : α → RegPool → State → Prop} (hx : c → x.Leads m p s post exit)
    (hy : ¬ c → y.Leads m p s post exit) : (if c then x else y).Leads m p s post exit := by
  split
  · next h => exact hx h
  · next h => exact hy h

theorem acquire {fragment : String} {post : Reg → RegPool → State → Prop} (h : ∀ r q, p.Takes r q → post r q s) :
    (acquire fragment).Leads m p s post exit := of_arrives (.acquire h)

theorem registers {change : RegPool → RegPool} {post : Unit → RegPool → State → Prop} (h : post () (change p) s) :
    (registers change).Leads m p s post exit := of_arrives (.registers h)

/-! ### Pieces with instructions -/

variable {post : Unit → RegPool → State → Prop}

theorem instr {i : Instr} {regs : Reg → Word} (hr : computed? i s.reg = some regs)
    (h : ∀ t : State, t.memory = s.memory → t.reg = regs → post () p t) : (instr i).Leads m p s post exit :=
  of_arrives (.instr hr h)

theorem load {rt base : Reg} {offset : Int16} (ha : CanAccess s (s.reg base + Word.ofImm offset))
    (h : ∀ t : State, t.memory = s.memory →
      t.reg = setReg s.reg rt (s.memory.read (s.reg base + Word.ofImm offset)) → post () p t) :
    (Emit.instr (.lw rt base offset)).Leads m p s post exit := of_arrives (.load ha h)

theorem gpr {reg : Reg} {w : Word} {ty : Scalar}
    (h : ∀ t : State, t.memory = s.memory → t.reg = setReg s.reg reg w → post () p t) :
    (pseudo (.gpr reg w ty)).Leads m p s post exit := of_arrives (.gpr h)

theorem store {rt base : Reg} {offset : Int16} (ha : CanAccess s (s.reg base + Word.ofImm offset))
    (behind : 4 * m.image.length ≤ (s.reg base + Word.ofImm offset).toNat)
    (h : ∀ t : State, t.memory = s.memory.write (s.reg base + Word.ofImm offset) (s.reg rt) → t.reg = s.reg → post () p t) :
    (Emit.instr (.sw rt base offset)).Leads m p s post exit := by
  intro r k hx hk hc
  cases (instr_eq_ok_iff _ _).1 hx
  obtain ⟨t, ht, regs⟩ := stores_store hk (hc.cons.1.head) ha behind
  obtain ⟨n, runs⟩ := ht.runs
  exact .inl ⟨n, t, runs, ht.at_end, h t ht.memory regs⟩

/-- A sequence of zeros. -/
theorem zero {base count : Reg} {n : Nat} (words : (s.reg count).toNat = n) (some_words : 0 < n)
    (aligned : (s.reg base).toNat % 4 = 0) (behind : 4 * m.image.length ≤ (s.reg base).toNat)
    (fits : (s.reg base).toNat + 4 * n ≤ s.memory.size) (small : (s.reg base).toNat + 4 * n < fullSize)
    (h : ∀ t : State, t.memory.size = s.memory.size → Only [base, count] s.reg t.reg →
      (∀ a : Word, a.toNat % 4 = 0 → t.memory.read a =
        if (s.reg base).toNat ≤ a.toNat ∧ a.toNat < (s.reg base).toNat + 4 * n then 0 else s.memory.read a) → post () p t) :
    (Emit.pseudo (.zero base count)).Leads m p s post exit := by
  intro r k hx hk hl
  obtain ⟨permitted, rfl⟩ := (pseudo_eq_ok_iff _ _).1 hx
  have room : Room s (s.reg base) n := by
    refine ⟨aligned, fits, small.le, ?_⟩
    rwa [hk.imageEnd, toNat_addressOf hk.small]
  obtain ⟨t, ht, only, memory⟩ := reaches_zero hk hl.cons.1 permitted words some_words room
  obtain ⟨steps, runs⟩ := ht.runs
  exact .inl ⟨steps, t, runs, ht.at_end, h t ht.size only memory⟩

/-- A call of a function whose code never comes to its end, but may come back to the instruction after the call. -/
theorem call {name : String} {body : Emit Unit} {p' : RegPool} {r' : Emitted Unit} (hb : body p' = .ok r')
    (has : m.Has (m.index name) r'.code)
    (h : ∀ t k, t.memory = s.memory → t.reg = setReg s.reg .ra (addressOf k) →
      body.Leads m p' t (fun _ _ _ => False) fun j u => (At m.image k u ∧ post () p u) ∨ exit (j + 1) u) :
    (Emit.lines [.jump "jal" name]).Leads m p s post exit := by
  intro r k hx hk hl
  cases (lines_eq_ok_iff _ _).1 hx
  have instr : m.image[k]? = some (.jump true (UInt32.ofNat (m.index name))) := hl.cons.1.head
  obtain ⟨t, first, ht, regs⟩ := computes_jumpLink hk instr
  rcases h t (k + 1) ht.memory regs r' _ hb ht.at_end has with ⟨_, _, _, _, never⟩ | ⟨n, j, u, runs, late, back | left⟩
  · exact absurd never not_false
  · exact .inl ⟨1 + n, u, first.trans runs, back.1, back.2⟩
  · exact .inr ⟨1 + n, j + 1, u, first.trans runs, by omega, left⟩

end Leads

end Emit

end M32.Lang
