import OsdevCourse.Reachability

/-!
# Programs over ports

A program puts values to ports and takes values from them, and a loop of it may go on forever. A
device answers, and what is outside may change the device between any two of the accesses. `Triple`
says what holds in every run: the condition `I` at every moment, and `Q` when the program has ended.
-/

namespace OsdevCourse.Port

set_option autoImplicit false

/-! Programs. -/

/-- A program with values `V` on its ports. -/
inductive Prog (V : Type) : Type → Type 1
  | pure {α : Type} (a : α) : Prog V α
  | out {α : Type} (port : UInt16) (v : V) (next : Prog V α) : Prog V α
  | inp {α : Type} (port : UInt16) (next : V → Prog V α) : Prog V α
  /-- The body goes on with another turn or with what comes after the loop. -/
  | iter {α β γ : Type} (body : β → Prog V (β ⊕ γ)) (b : β) (next : γ → Prog V α) : Prog V α

namespace Prog
variable {V α β γ δ : Type}

def bind : Prog V α → (α → Prog V β) → Prog V β
  | .pure a, f => f a
  | .out port v next, f => .out port v (next.bind f)
  | .inp port next, f => .inp port fun v => (next v).bind f
  | .iter body b next, f => .iter body b fun c => (next c).bind f

instance : Monad (Prog V) where
  pure := .pure
  bind := bind

theorem bind_assoc (p : Prog V α) (f : α → Prog V β) (g : β → Prog V γ) :
    (p.bind f).bind g = p.bind fun a => (f a).bind g := by
  induction p with
  | pure a => rfl
  | out port v next ih => exact congrArg (Prog.out port v) (ih f)
  | inp port next ih => exact congrArg (Prog.inp port) (funext fun v => ih v f)
  | iter body b next _ ih => exact congrArg (Prog.iter body b) (funext fun c => ih c f)

/-- A loop with nothing after it. -/
def loop (body : β → Prog V (β ⊕ γ)) (b : β) : Prog V γ := .iter body b .pure

/-- The loop after a turn of its body. -/
def again (body : β → Prog V (β ⊕ γ)) (next : γ → Prog V α) : β ⊕ γ → Prog V α
  | .inl b => .iter body b next
  | .inr c => next c

theorem again_bind (p : Prog V (β ⊕ γ)) (body : β → Prog V (β ⊕ γ)) (next : γ → Prog V α)
    (f : α → Prog V δ) :
    (p.bind (again body next)).bind f = p.bind (again body fun c => (next c).bind f) := by
  rw [bind_assoc]
  congr 1
  funext r
  cases r <;> rfl

/-- `for (i = 0; i < n; i++)`, which the body leaves with `none`. -/
def upto (n : Nat) (body : Nat → β → Prog V (Option β)) (b : β) : Prog V (Option β) :=
  loop (fun (i, b) =>
      if i < n then
        (body i b).bind fun
          | some b => .pure (.inl (i + 1, b))
          | none => .pure (.inr none)
      else .pure (.inr (some b)))
    (0, b)

end Prog

/-! Devices. -/

/-- What the ports do, and what may happen to the device from outside. -/
structure Device (σ V ε : Type) where
  read : UInt16 → σ → V × σ
  write : UInt16 → V → σ → σ
  env : σ → ε → σ → Prop

inductive Act (V ε : Type)
  | turn
  | out (port : UInt16) (v : V)
  | inp (port : UInt16) (v : V)
  | env (e : ε)

section
variable {σ V ε α β γ : Type} (d : Device σ V ε)

/-- The program accesses a port or begins a turn of a loop, or something happens outside. -/
inductive Step : σ × Prog V α → Act V ε → σ × Prog V α → Prop
  | out {s : σ} {port : UInt16} {v : V} {next : Prog V α} :
    Step (s, .out port v next) (.out port v) (d.write port v s, next)
  | inp {s : σ} {port : UInt16} {next : V → Prog V α} :
    Step (s, .inp port next) (.inp port (d.read port s).1)
      ((d.read port s).2, next (d.read port s).1)
  | turn {β γ : Type} {s : σ} {body : β → Prog V (β ⊕ γ)} {b : β} {next : γ → Prog V α} :
    Step (s, .iter body b next) .turn (s, (body b).bind (Prog.again body next))
  | env {s t : σ} {p : Prog V α} {e : ε} : d.env s e t → Step (s, p) (.env e) (t, p)

/-- In every run from a state in `P`: `I` at every moment, and `Q` at the end. -/
def Triple (I P : σ → Prop) (p : Prog V α) (Q : α → σ → Prop) : Prop :=
  ∀ s, P s → ∀ as t q, Run (Step d) (s, p) as (t, q) → I t ∧ ∀ a, q = .pure a → Q a t

/-- What happens outside keeps `P`, and `I` holds with it. -/
structure Stable (I P : σ → Prop) : Prop where
  inv : ∀ s, P s → I s
  env : ∀ s e t, P s → d.env s e t → P t

/-- The step that the program takes next. -/
def next (c : σ × Prog V α) : σ × Prog V α :=
  match c.2 with
  | .pure a => (c.1, .pure a)
  | .out port v next => (d.write port v c.1, next)
  | .inp port next => ((d.read port c.1).2, next (d.read port c.1).1)
  | .iter body b next => (c.1, (body b).bind (Prog.again body next))

/-- So many steps of the program, with nothing from outside. -/
def steps : Nat → σ × Prog V α → σ × Prog V α
  | 0, c => c
  | n + 1, c => steps n (next d c)

end

section Rules
variable {σ V ε α β γ : Type} {d : Device σ V ε} {I P S : σ → Prop} {Q R : α → σ → Prop}

theorem run_steps (n : Nat) (c : σ × Prog V α) : ∃ as, Run (Step d) c as (steps d n c) := by
  induction n generalizing c with
  | zero => exact ⟨[], .nil c⟩
  | succ n ih =>
    obtain ⟨as, hrun⟩ := ih (next d c)
    obtain ⟨s, p⟩ := c
    cases p with
    | pure a => exact ⟨as, hrun⟩
    | out port v next => exact ⟨_, .cons .out hrun⟩
    | inp port next => exact ⟨_, .cons .inp hrun⟩
    | iter body b next => exact ⟨_, .cons .turn hrun⟩

theorem Triple.conseq {p : Prog V α} (h : Triple d I P p Q) (hpre : ∀ s, S s → P s)
    (hpost : ∀ a s, Q a s → R a s) : Triple d I S p R := by
  intro s hs as t q hrun
  obtain ⟨hinv, hend⟩ := h s (hpre s hs) as t q hrun
  exact ⟨hinv, fun a hq => hpost a t (hend a hq)⟩

theorem Stable.run {I P : σ → Prop} (h : Stable d I P) {a : α} {c c' : σ × Prog V α}
    {as : List (Act V ε)}
    (hrun : Run (Step d) c as c') (hp : c.2 = .pure a) (hs : P c.1) : c'.2 = .pure a ∧ P c'.1 := by
  induction hrun with
  | nil => exact ⟨hp, hs⟩
  | cons hstep _ ih =>
    cases hstep with
    | env henv => exact ih hp (h.env _ _ _ hs henv)
    | out => cases hp
    | inp => cases hp
    | turn => cases hp

theorem Stable.some {X : Type} {P : X → σ → Prop} (h : ∀ x, Stable d I (P x)) :
    Stable d I fun s => ∃ x, P x s := by
  constructor
  · rintro s ⟨x, hs⟩
    exact (h x).inv s hs
  · rintro s e t ⟨x, hs⟩ henv
    exact ⟨x, (h x).env s e t hs henv⟩

theorem Stable.given {φ : Prop} (h : φ → Stable d I P) : Stable d I fun s => φ ∧ P s := by
  constructor
  · rintro s ⟨hφ, hs⟩
    exact (h hφ).inv s hs
  · rintro s e t ⟨hφ, hs⟩ henv
    exact ⟨hφ, (h hφ).env s e t hs henv⟩

theorem triple_some {X : Type} {P : X → σ → Prop} {p : Prog V α} (h : ∀ x, Triple d I (P x) p Q) :
    Triple d I (fun s => ∃ x, P x s) p Q := by
  rintro s ⟨x, hs⟩
  exact h x s hs

theorem triple_given {φ : Prop} {p : Prog V α} (h : φ → Triple d I P p Q) :
    Triple d I (fun s => φ ∧ P s) p Q := by
  rintro s ⟨hφ, hs⟩
  exact h hφ s hs

theorem triple_pure (h : Stable d I P) (a : α) : Triple d I P (.pure a) fun b s => b = a ∧ P s := by
  intro s hs as t q hrun
  obtain ⟨hq, ht⟩ := h.run hrun rfl hs
  refine ⟨h.inv t ht, fun b hb => ⟨?_, ht⟩⟩
  cases hq.symm.trans hb
  rfl

theorem triple_end (h : Stable d I P) {a : α} (hpost : ∀ s, P s → Q a s) :
    Triple d I P (.pure a) Q := by
  refine (triple_pure h a).conseq (fun _ hs => hs) fun b s hs => ?_
  rw [hs.1]
  exact hpost s hs.2

theorem triple_out (h : Stable d I P) {port : UInt16} {v : V} {next : Prog V α}
    (hwrite : ∀ s, P s → S (d.write port v s)) (hnext : Triple d I S next Q) :
    Triple d I P (.out port v next) Q := by
  intro s hs as t q hrun
  generalize hc : (s, Prog.out port v next) = c at hrun
  generalize hc' : (t, q) = c' at hrun
  induction hrun generalizing s with
  | nil =>
    cases hc
    cases hc'
    exact ⟨h.inv _ hs, nofun⟩
  | cons hstep hrest ih =>
    cases hc
    cases hstep with
    | env henv => exact ih _ (h.env _ _ _ hs henv) rfl hc'
    | out =>
      cases hc'
      exact hnext _ (hwrite _ hs) _ _ _ hrest

theorem triple_inp (h : Stable d I P) {port : UInt16} {next : V → Prog V α} {R : V → σ → Prop}
    (hread : ∀ s, P s → R (d.read port s).1 (d.read port s).2)
    (hnext : ∀ v, Triple d I (R v) (next v) Q) :
    Triple d I P (.inp port next) Q := by
  intro s hs as t q hrun
  generalize hc : (s, Prog.inp port next) = c at hrun
  generalize hc' : (t, q) = c' at hrun
  induction hrun generalizing s with
  | nil =>
    cases hc
    cases hc'
    exact ⟨h.inv _ hs, nofun⟩
  | cons hstep hrest ih =>
    cases hc
    cases hstep with
    | env henv => exact ih _ (h.env _ _ _ hs henv) rfl hc'
    | inp =>
      cases hc'
      exact hnext _ _ (hread _ hs) _ _ _ hrest

theorem Step.of_bind {p : Prog V α} {f : α → Prog V β} {s : σ} {x : Act V ε} {c : σ × Prog V β}
    (hstep : Step d (s, p.bind f) x c) :
    (∃ a, p = .pure a) ∨ ∃ s' p', Step d (s, p) x (s', p') ∧ c = (s', p'.bind f) := by
  cases p with
  | pure a => exact .inl ⟨a, rfl⟩
  | out port v next =>
    cases hstep with
    | env henv => exact .inr ⟨_, _, .env henv, rfl⟩
    | out => exact .inr ⟨_, _, .out, rfl⟩
  | inp port next =>
    cases hstep with
    | env henv => exact .inr ⟨_, _, .env henv, rfl⟩
    | inp => exact .inr ⟨_, _, .inp, rfl⟩
  | iter body b next =>
    cases hstep with
    | env henv => exact .inr ⟨_, _, .env henv, rfl⟩
    | turn => exact .inr ⟨_, _, .turn, by rw [Prog.again_bind]⟩

/-- A run of two programs one after the other is one of the first, or one of the first to its end
and one of the second. -/
theorem Run.of_bind {p : Prog V α} {f : α → Prog V β} {s t : σ} {q : Prog V β} {as : List (Act V ε)}
    (hrun : Run (Step d) (s, p.bind f) as (t, q)) :
    (∃ p', Run (Step d) (s, p) as (t, p') ∧ q = p'.bind f) ∨
    ∃ as₁ as₂ u a, Run (Step d) (s, p) as₁ (u, .pure a) ∧ Run (Step d) (u, f a) as₂ (t, q) ∧
      as₂.length ≤ as.length := by
  generalize hc : (s, p.bind f) = c at hrun
  generalize hc' : (t, q) = c' at hrun
  induction hrun generalizing s p with
  | nil =>
    cases hc
    cases hc'
    exact .inl ⟨p, .nil _, rfl⟩
  | cons hstep hrest ih =>
    cases hc
    cases hc'
    rcases hstep.of_bind with ⟨a, rfl⟩ | ⟨s', p', hstep', rfl⟩
    · exact .inr ⟨[], _, s, a, .nil _, .cons hstep hrest, Nat.le_refl _⟩
    · rcases ih rfl rfl with ⟨p'', hp, hq⟩ | ⟨as₁, as₂, u, a, hfirst, hsecond, hlen⟩
      · exact .inl ⟨p'', .cons hstep' hp, hq⟩
      · exact .inr ⟨_, as₂, u, a, .cons hstep' hfirst, hsecond, Nat.le_succ_of_le hlen⟩

theorem Prog.bind_eq_pure {p : Prog V α} {f : α → Prog V β} {b : β} (h : p.bind f = .pure b) :
    ∃ a, p = .pure a ∧ f a = .pure b := by
  cases p with
  | pure a => exact ⟨a, rfl, h⟩
  | out => cases h
  | inp => cases h
  | iter => cases h

theorem triple_bind {p : Prog V α} {f : α → Prog V β} {R : β → σ → Prop} (hp : Triple d I P p Q)
    (hf : ∀ a, Triple d I (Q a) (f a) R) : Triple d I P (p.bind f) R := by
  intro s hs as t q hrun
  rcases Run.of_bind hrun with ⟨p', hp', rfl⟩ | ⟨as₁, as₂, u, a, hfirst, hsecond, _⟩
  · obtain ⟨hinv, hend⟩ := hp s hs _ _ _ hp'
    refine ⟨hinv, fun b hb => ?_⟩
    obtain ⟨a, rfl, ha⟩ := Prog.bind_eq_pure hb
    exact (hf a t (hend a rfl) [] t _ (.nil _)).2 b ha
  · exact hf a u ((hp s hs _ _ _ hfirst).2 a rfl) _ _ _ hsecond

theorem triple_iter {body : β → Prog V (β ⊕ γ)} {next : γ → Prog V α} {J : β → σ → Prop}
    {R : γ → σ → Prop}
    (hstable : ∀ b, Stable d I (J b))
    (hbody : ∀ b, Triple d I (J b) (body b) fun r s => r.elim (J · s) (R · s))
    (hnext : ∀ c, Triple d I (R c) (next c) Q) (b : β) :
    Triple d I (J b) (.iter body b next) Q := by
  have hall : ∀ n, ∀ b s, J b s → ∀ as t q, as.length ≤ n → Run (Step d)
    (s, .iter body b next) as (t, q) →
      I t ∧ ∀ a, q = .pure a → Q a t := by
    intro n
    induction n with
    | zero =>
      intro b s hs as t q hlen hrun
      obtain rfl := List.length_eq_zero_iff.mp (Nat.le_zero.mp hlen)
      cases hrun
      exact ⟨(hstable b).inv _ hs, nofun⟩
    | succ n ih =>
      intro b s hs as t q hlen hrun
      cases hrun with
      | nil => exact ⟨(hstable b).inv _ hs, nofun⟩
      | cons hstep hrest =>
        have hshort := Nat.le_of_succ_le_succ hlen
        cases hstep with
        | env henv => exact ih b _ ((hstable b).env _ _ _ hs henv) _ _ _ hshort hrest
        | turn =>
          rcases Run.of_bind hrest with ⟨p', hp', rfl⟩ | ⟨as₁, as₂, u, r, hfirst, hsecond, hle⟩
          · obtain ⟨hinv, hend⟩ := hbody b s hs _ _ _ hp'
            refine ⟨hinv, fun a ha => ?_⟩
            obtain ⟨r, rfl, hr⟩ := Prog.bind_eq_pure ha
            cases r with
            | inl b' => cases hr
            | inr c => exact (hnext c t (hend _ rfl) [] t _ (.nil _)).2 a hr
          · have hu := (hbody b s hs _ _ _ hfirst).2 r rfl
            cases r with
            | inl b' => exact ih b' u hu _ _ _ (Nat.le_trans hle hshort) hsecond
            | inr c => exact hnext c u hu _ _ _ hsecond
  intro s hs as t q hrun
  exact hall as.length b s hs as t q (Nat.le_refl _) hrun

theorem triple_upto {n : Nat} {p : Nat → β → Prog V (Option β)} {J : Nat → β → σ → Prop}
    {F : σ → Prop}
    (hstable : ∀ i b, Stable d I (J i b)) (hleft : Stable d I F)
    (hbody : ∀ i b, i < n → Triple d I (J i b) (p i b) fun r s => r.elim (F s) (J (i + 1) · s))
    (b : β) :
    Triple d I (J 0 b) (Prog.upto n p b) fun r s => r.elim (F s) (J n · s) := by
  have hall : ∀ r : Option β, Stable d I fun s => r.elim (F s) (J n · s) := by
    intro r
    cases r with
    | none => exact hleft
    | some b => exact hstable n b
  have hstart : ∀ s, J 0 b s → 0 ≤ n ∧ J 0 b s := fun s hs => ⟨Nat.zero_le n, hs⟩
  refine Triple.conseq (triple_iter (J := fun r s => r.1 ≤ n ∧ J r.1 r.2 s)
    (R := fun r s => r.elim (F s) (J n · s))
    (fun r => Stable.given fun _ => hstable r.1 r.2) (fun ⟨i, b⟩ => ?_)
    (fun r => triple_end (hall r) fun _ h => h) (0, b))
    hstart fun _ _ h => h
  apply triple_given
  intro hle
  by_cases hlt : i < n
  · simp only [if_pos hlt]
    refine triple_bind (hbody i b hlt) fun r => ?_
    cases r with
    | none => exact triple_end hleft fun _ h => h
    | some b => exact triple_end (hstable (i + 1) b) fun _ h => ⟨hlt, h⟩
  · obtain rfl : i = n := Nat.le_antisymm hle (Nat.le_of_not_lt hlt)
    simp only [if_neg hlt]
    exact triple_end (hstable i b) fun _ h => h

/-! Programs that end. -/

/-- The step is one of the program. -/
def Act.own : Act V ε → Bool
  | .env _ => false
  | _ => true

/-- The program ends within so many steps, and puts only what `W` allows. -/
inductive Within {α : Type} (W : UInt16 → V → Prop) : Nat → Prog V α → Prop
  | pure (n : Nat) (a : α) : Within W n (.pure a)
  | out {n : Nat} {port : UInt16} {v : V} {next : Prog V α} :
    W port v → Within W n next → Within W (n + 1) (.out port v next)
  | inp {n : Nat} {port : UInt16} {next : V → Prog V α} :
    (∀ v, Within W n (next v)) → Within W (n + 1) (.inp port next)
  | turn {β γ : Type} {n : Nat} {body : β → Prog V (β ⊕ γ)} {b : β} {next : γ → Prog V α} :
    Within W n ((body b).bind (Prog.again body next)) → Within W (n + 1) (.iter body b next)

/-- Every run of the program goes on to its end, takes at most so many steps of its own on the
way, and puts only what `W` allows. -/
def Bounded (d : Device σ V ε) (W : UInt16 → V → Prop) (n : Nat) (p : Prog V α) : Prop :=
  ∀ s as c, Run (Step d) (s, p) as c →
    as.countP Act.own ≤ n ∧ (∀ port v, .out port v ∈ as → W port v) ∧
      ∃ bs t a, Run (Step d) c bs (t, .pure a)

section Bounds
variable {W : UInt16 → V → Prop} {m n : Nat} {p : Prog V α}

theorem Within.add (k : Nat) (h : Within W n p) : Within W (n + k) p := by
  induction h with
  | pure n a => exact .pure (n + k) a
  | out hw _ ih =>
    rw [Nat.add_right_comm]
    exact .out hw ih
  | inp _ ih =>
    rw [Nat.add_right_comm]
    exact .inp ih
  | turn _ ih =>
    rw [Nat.add_right_comm]
    exact .turn ih

theorem Within.bind {f : α → Prog V β} (hp : Within W m p) (hf : ∀ a, Within W n (f a)) :
    Within W (m + n) (p.bind f) := by
  induction hp with
  | pure k a =>
    rw [Nat.add_comm]
    exact (hf a).add k
  | out hw _ ih =>
    rw [Nat.add_right_comm]
    exact .out hw ih
  | inp _ ih =>
    rw [Nat.add_right_comm]
    exact .inp ih
  | turn _ ih =>
    rw [Nat.add_right_comm]
    refine .turn ?_
    rw [← Prog.again_bind]
    exact ih

theorem Within.upto {k : Nat} {body : Nat → β → Prog V (Option β)}
    (hbody : ∀ i b, Within W m (body i b)) (b : β) :
    Within W (k * (m + 1) + 1) (Prog.upto k body b) := by
  unfold Prog.upto Prog.loop
  generalize hg : (fun (r : Nat × β) => if r.1 < k then
        (body r.1 r.2).bind fun
          | some b => .pure (.inl (r.1 + 1, b))
          | none => .pure (.inr none)
      else .pure (.inr (some r.2)) : Nat × β → Prog V ((Nat × β) ⊕ Option β)) = g
  have hall : ∀ left i b, k - i = left →
      Within W (left * (m + 1) + 1) (.iter g (i, b) .pure) := by
    intro left
    induction left with
    | zero =>
      intro i b hi
      have hdone : g (i, b) = .pure (.inr (some b)) := by
        rw [← hg]
        exact if_neg (by omega)
      refine .turn ?_
      rw [hdone]
      exact .pure _ _
    | succ left ih =>
      intro i b hi
      have hmore : g (i, b) = (body i b).bind fun
          | some b => .pure (.inl (i + 1, b))
          | none => .pure (.inr none) := by
        rw [← hg]
        exact if_pos (by omega)
      have hsize : (left + 1) * (m + 1) = m + (left * (m + 1) + 1) := by
        rw [Nat.succ_mul]
        omega
      refine .turn ?_
      rw [hmore, Prog.bind_assoc, hsize]
      refine (hbody i b).bind fun r => ?_
      cases r with
      | none => exact .pure _ none
      | some b' => exact ih (i + 1) b' (by omega)
  exact hall k 0 b rfl

theorem Within.step {c c' : σ × Prog V α} {x : Act V ε} (h : Within W n c.2)
    (hstep : Step d c x c') :
    ∃ m, x.own.toNat + m = n ∧ Within W m c'.2 ∧ ∀ port v, x = .out port v → W port v := by
  cases hstep with
  | env => exact ⟨n, Nat.zero_add n, h, nofun⟩
  | out =>
    cases h with
    | out hw hnext =>
      refine ⟨_, Nat.add_comm _ _, hnext, ?_⟩
      rintro _ _ ⟨⟩
      exact hw
  | inp =>
    cases h with
    | inp hnext => exact ⟨_, Nat.add_comm _ _, hnext _, nofun⟩
  | turn =>
    cases h with
    | turn hnext => exact ⟨_, Nat.add_comm _ _, hnext, nofun⟩

theorem Within.run {c c' : σ × Prog V α} {as : List (Act V ε)} (h : Within W n c.2)
    (hrun : Run (Step d) c as c') :
    ∃ m, as.countP Act.own + m = n ∧ Within W m c'.2 ∧
      ∀ port v, .out port v ∈ as → W port v := by
  induction hrun generalizing n with
  | nil => exact ⟨n, Nat.zero_add n, h, nofun⟩
  | @cons _ _ _ x as hstep _ ih =>
    obtain ⟨m, hm, hnext, hfirst⟩ := h.step hstep
    obtain ⟨k, hk, hend, hrest⟩ := ih hnext
    refine ⟨k, ?_, hend, ?_⟩
    · rw [List.countP_cons]
      cases hown : x.own with
      | false =>
        rw [hown, Bool.toNat_false] at hm
        simp only [Bool.false_eq_true, if_false]
        omega
      | true =>
        rw [hown, Bool.toNat_true] at hm
        simp only [if_true]
        omega
    · intro port v hmem
      rcases List.mem_cons.mp hmem with heq | hmem
      · exact hfirst port v heq.symm
      · exact hrest port v hmem

theorem Within.ends (h : Within W n p) (s : σ) :
    ∃ as t a, Run (Step d) (s, p) as (t, .pure a) := by
  induction h generalizing s with
  | pure _ a => exact ⟨[], s, a, .nil _⟩
  | out _ _ ih =>
    obtain ⟨as, t, a, hrun⟩ := ih (d.write _ _ s)
    exact ⟨_, t, a, .cons .out hrun⟩
  | @inp _ port _ _ ih =>
    obtain ⟨as, t, a, hrun⟩ := ih (d.read port s).1 (d.read port s).2
    exact ⟨_, t, a, .cons .inp hrun⟩
  | turn _ ih =>
    obtain ⟨as, t, a, hrun⟩ := ih s
    exact ⟨_, t, a, .cons .turn hrun⟩

theorem Within.bounded (h : Within W n p) : Bounded d W n p := by
  intro s as c hrun
  obtain ⟨m, hm, hnext, hput⟩ := Within.run h hrun
  exact ⟨by omega, hput, hnext.ends c.1⟩

end Bounds

end Rules

end OsdevCourse.Port
