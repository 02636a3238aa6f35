import OsdevCourse.ContextSwitchRuns

/-!
# What a thread sets aside on its stack

A thread that is in the middle of something has words on its stack that it comes back for. The
code that it runs in between keeps off them, and calls `scheduler_yield` from below them
only. Then they are as they were whenever the thread runs again.
-/

namespace OsdevCourse.ContextSwitch

set_option autoImplicit false

open I686

/-- The thread has set the bytes `keep` of its stack aside. -/
structure SetAside (k : Kernel) (t : UInt32) (keep : Nat → Prop) (s : System) : Prop where
  mem : t ∈ s.threads
  uses : ∀ n, keep n → s.place n = .stack t
  saved : s.current k ≠ t → ∀ n, keep n → (contextAt s.cpu.mem t .esp).toNat ≤ n

/-- The thread keeps off them. -/
def Keeps (k : Kernel) (t : UInt32) (keep : Nat → Prop) (s : System) : Action → Prop
  | .exec cpu => s.current k = t → ∀ n, keep n → cpu.mem n = s.cpu.mem n
  | .yield _ => s.current k = t → ∀ n, keep n → (s.cpu.reg .esp).toNat ≤ n
  | .reap u => u ≠ t
  | .create _ _ _ => True

section Kept
variable {k : Kernel} {s s' : System} {a : Action} {t : UInt32} {keep : Nat → Prop}

theorem SetAside.step (h : SetAside k t keep s) (hsane : Sane k s) (hstep : Step k s a s')
    (hkeeps : Keeps k t keep s a) :
    SetAside k t keep s' ∧ ∀ n, keep n → s'.cpu.mem n = s.cpu.mem n := by
  have hreap : a ≠ .reap t := by
    rintro rfl
    exact hkeeps rfl
  obtain ⟨hmem, hplace⟩ := hstep.thread hsane h.mem hreap
  have huses : ∀ n, keep n → s'.place n = .stack t := fun n hn => (hplace n).mpr (h.uses n hn)
  by_cases hcurrent : s.current k = t
  · -- the thread itself runs
    cases hstep with
    | exec hforeign =>
      have hsame := (Step.exec hforeign).current_kept hsane fun _ heq => by cases heq
      exact ⟨⟨hmem, huses, fun hne => absurd (hsame.trans hcurrent) hne⟩, hkeeps hcurrent⟩
    | create hfresh hnew htcb hstack =>
      have hsame := (Step.create hfresh hnew htcb hstack).current_kept hsane fun _
        heq => by cases heq
      refine ⟨⟨hmem, huses, fun hne => absurd (hsame.trans hcurrent) hne⟩, fun n hn => ?_⟩
      exact (create_other hfresh htcb hstack (by simp [h.uses n hn])).2
    | reap => exact ⟨⟨hmem, huses, fun hne => absurd hcurrent hne⟩, fun _ _ => rfl⟩
    | yield hroom hpicked =>
      have hswitched := hsane.switched (Step.yield hroom hpicked)
      have hown : nextContext k s t .esp = s.cpu.reg .esp := by
        rw [nextContext, if_pos hcurrent.symm]
        rfl
      have hbelow : ∀ n, keep n → (s.cpu.reg .esp).toNat ≤ n := hkeeps hcurrent
      refine ⟨⟨hmem, huses, fun _ n hn => ?_⟩, fun n hn => ?_⟩
      · rw [hswitched.context t h.mem, hown]
        exact hbelow n hn
      · apply hswitched.stack t n (h.uses n hn)
        · exact fun _ => hbelow n hn
        · rw [hown]
          exact fun _ => hbelow n hn
  · have hsaved := h.saved hcurrent
    refine ⟨⟨hmem, huses, fun _ n hn => ?_⟩, fun n hn => ?_⟩
    · rw [hstep.context_kept hsane h.mem hcurrent]
      exact hsaved n hn
    · exact hstep.stack_kept hsane hcurrent (h.uses n hn) fun _ => hsaved n hn

/-- While the thread is away the condition asks only that it is not freed. -/
theorem keeps_of_ne (hcurrent : s.current k ≠ t) (hreap : a ≠ .reap t) : Keeps k t keep s a := by
  cases a with
  | exec cpu => exact fun heq => absurd heq hcurrent
  | create tcb kstack args => trivial
  | reap u =>
    rintro rfl
    exact hreap rfl
  | yield returned => exact fun heq => absurd heq hcurrent

theorem Sane.yield_tss (h : Sane k s) {returned : Cpu}
    (hstep : Step k s (.yield returned) s') {n : Nat}
    (hn : s.place n = .tss) (hout : n < k.tssEsp0.toNat ∨ k.tssEsp0.toNat + 4 ≤ n) :
    s'.cpu.mem n = s.cpu.mem n := by
  cases hstep with
  | yield hroom hpicked =>
    have hentry := h.entry hroom
    have hexit := h.exit hroom hpicked
    have hcontext := h.contextAt_returned hroom hpicked hpicked.target
    obtain ⟨_, _, _, hplace⟩ := h.target_stack hroom hpicked.target
    rw [← hcontext] at hplace
    have hlow := hexit.room
    have htop : (contextAt returned.mem (returned.reg .eax) .esp - UInt32.ofNat 4).toNat =
        (contextAt returned.mem (returned.reg .eax) .esp).toNat - 4 := toNat_sub_offset hlow
    have hother : ∀ p, p ≠ .tss → s.place n ≠ p := fun p hp => hn ▸ hp.symm
    have hcurrent := out_of_place s.place .current h.current (hother _ (by simp))
    have hstack := out_of_place s.place (.stack (returned.reg .eax)) hplace (hother _ (by simp))
    have hpick : returned.mem n = (saveContext k s.cpu).mem n := by
      by_contra hne
      rcases hpicked.writes n hne with hw | hw | ⟨u, hw⟩ | ⟨hw, _⟩
      · simp [hn] at hw
      · simp [hn] at hw
      · simp [hn] at hw
      · simp [hn] at hw
    have hsave : (saveContext k s.cpu).mem n = s.cpu.mem n := by
      apply hentry.saved_out
      · refine out_of_place s.place (.stack (s.current k)) ?_ (hother _ (by simp))
        intro j hj hj'
        exact hroom.stack j hj (by omega)
      · exact out_of_place s.place (.context (s.current k)) (h.context _ h.running)
          (hother _ (by simp))
    rw [← hsave, ← hpick, loadContext_eq hexit]
    simp only
    rw [store_out (by omega), store_out hout, store_out hcurrent]

end Kept

end OsdevCourse.ContextSwitch
