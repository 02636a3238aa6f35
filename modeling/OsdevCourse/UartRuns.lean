import OsdevCourse.Uart

/-!
# Every run of the conversation

Nothing that comes in is lost while there is room for it, nothing that is put is lost, and what the
loop of `kmain` has put is the conversation about the bytes it has taken.
-/

namespace OsdevCourse.Uart

set_option autoImplicit false

open Memory Port

/-! The ports. -/

theorem decode_ioports {i : Nat} {reg : UInt16} (hi : i < 4) (hreg : reg < 8) :
    decode (ioports.getD i 0 + reg) = some (i, reg) := by
  have hall : ∀ i < 4, ∀ k < 8, decode (ioports.getD i 0 + UInt16.ofNat k) = some
      (i, UInt16.ofNat k) := by
    decide
  have hlt : reg.toNat < 8 := UInt16.lt_iff_toNat_lt.mp hreg
  have hport := hall i hi reg.toNat hlt
  rw [UInt16.ofNat_toNat] at hport
  exact hport

theorem Machine.set_self (s : Machine) (i : Nat) : s.set i (s.com i) = s := by
  unfold Machine.set
  congr 1
  funext j
  split
  · rename_i h
    rw [h]
  · rfl

@[simp] theorem Machine.set_com (s : Machine) (i : Nat) (c : Com) :
    (s.set i c).com i = c := if_pos rfl

theorem Machine.set_other {s : Machine} {i j : Nat} {c : Com} (h : j ≠ i) :
    (s.set i c).com j = s.com j := if_neg h

/-- The bytes of one writer. -/
def bytesOf (w : Writer) (l : List (Writer × UInt8)) : List UInt8 :=
  (l.filter fun x => x.1 = w).map fun x => x.2

theorem bytesOf_append (w : Writer) (l k : List (Writer × UInt8)) :
    bytesOf w (l ++ k) = bytesOf w l ++ bytesOf w k := by
  unfold bytesOf
  rw [List.filter_append, List.map_append]

/-- The first port as `uart_open` leaves it: eight bits to a byte, and the FIFOs enabled. Nothing
has been lost in the FIFOs, and there is room for every thread that has polled. -/
structure Sound (n : Nat) (s : Machine) : Prop where
  lcr : (s.com 0).lcr = 0x03
  fcr : (s.com 0).fcr = 0xC7
  taken : (s.com 0).taken ++ (s.com 0).rx = (s.com 0).accepted
  wire : (s.com 0).wire ++ (s.com 0).tx = (s.com 0).put
  said : bytesOf .kdebug (s.com 0).put = s.said
  pending : s.pending ≤ n
  room : (s.com 0).tx.length + s.pending ≤ n + 1

/-- The HAL has put the bytes `w` and taken the bytes `t`. -/
structure Mid (n : Nat) (w t : List UInt8) (s : Machine) : Prop where
  sound : Sound n s
  put : bytesOf .hal (s.com 0).put = w
  taken : (s.com 0).taken = t

/-- What holds at every moment: the bytes that were put go with those that were taken. -/
def Goes (B : List UInt8 → List UInt8 → Prop) (n : Nat) (s : Machine) : Prop :=
  Sound n s ∧ B (bytesOf .hal (s.com 0).put) (s.com 0).taken

section Com
variable {c : Com}

theorem depth_open (h : c.fcr = 0xC7) : c.depth = 16 := by
  unfold Com.depth
  rw [h]
  rfl

theorem dlab_open (h : c.lcr = 0x03) : c.dlab = false := by
  unfold Com.dlab
  rw [h]
  rfl

theorem lsr_transmit : c.lsr &&& 0x20 = 0 ↔ c.tx ≠ [] := by
  unfold Com.lsr
  by_cases hr : c.rx = [] <;> by_cases ht : c.tx = [] <;> simp [hr, ht] <;> decide

theorem lsr_receive : c.lsr &&& 0x01 = 0 ↔ c.rx = [] := by
  unfold Com.lsr
  by_cases hr : c.rx = [] <;> by_cases ht : c.tx = [] <;> simp [hr, ht] <;> decide

end Com

section Outside
variable {n : Nat} {s s' : Machine} {e : Event} {w t : List UInt8}

/-- What happens outside, on the first port. -/
structure Outside (n : Nat) (s s' : Machine) : Prop where
  sound : Sound n s'
  put : bytesOf .hal (s'.com 0).put = bytesOf .hal (s.com 0).put
  taken : (s'.com 0).taken = (s.com 0).taken
  rx : (s.com 0).rx <+: (s'.com 0).rx
  load : (s.com 0).tx.length + s.pending ≤ n → (s'.com 0).tx.length + s'.pending ≤ n

theorem Machine.set_zero_of_ne {i : Nat} {c : Com} (h : i ≠ 0) : (s.set i c).com 0 = s.com 0 :=
  Machine.set_other (Ne.symm h)

theorem Outside.same (h : Sound n s) (hcom : s'.com 0 = s.com 0) (hpending : s'.pending = s.pending)
    (hsaid : s'.said = s.said) : Outside n s s' := by
  constructor
  · refine ⟨?_, ?_, ?_, ?_, ?_, ?_, ?_⟩
    · exact hcom ▸ h.lcr
    · exact hcom ▸ h.fcr
    · exact hcom ▸ h.taken
    · exact hcom ▸ h.wire
    · rw [hcom, hsaid]
      exact h.said
    · rw [hpending]
      exact h.pending
    · rw [hcom, hpending]
      exact h.room
  · rw [hcom]
  · rw [hcom]
  · exact ⟨[], by rw [hcom, List.append_nil]⟩
  · intro hload
    rw [hcom, hpending]
    exact hload

theorem Sound.outside (hn : n ≤ 15) (h : Sound n s) (hstep : Env n s e s') : Outside n s s' := by
  have hdepth := depth_open h.fcr
  have hdlab := dlab_open h.lcr
  cases hstep with
  | arrive i b =>
    by_cases hi : i = 0
    · subst hi
      unfold Com.receive
      by_cases hfull : (s.com 0).rx.length < (s.com 0).depth
      · rw [if_pos hfull]
        refine ⟨⟨h.lcr, h.fcr, ?_, h.wire, h.said, h.pending, h.room⟩, rfl, rfl,
          List.prefix_append _ _, id⟩
        have htaken := h.taken
        simp only [Machine.set_com]
        rw [← List.append_assoc, htaken]
      · rw [if_neg hfull, Machine.set_self]
        exact .same h rfl rfl rfl
    · exact .same h (Machine.set_zero_of_ne hi) rfl rfl
  | @transmit i x rest htx =>
    by_cases hi : i = 0
    · subst hi
      have hlen : (s.com 0).tx.length = rest.length + 1 := by rw [htx, List.length_cons]
      have hroom := h.room
      refine ⟨⟨h.lcr, h.fcr, h.taken, ?_, h.said, h.pending, ?_⟩, rfl, rfl, List.prefix_refl _,
        fun hload => ?_⟩
      · have hwire := h.wire
        rw [htx] at hwire
        simp only [Machine.set_com, List.append_assoc, List.singleton_append]
        exact hwire
      · simp only [Machine.set_com]
        show rest.length + s.pending ≤ n + 1
        omega
      · simp only [Machine.set_com]
        show rest.length + s.pending ≤ n
        omega
    · exact .same h (Machine.set_zero_of_ne hi) rfl rfl
  | poll hpending hlsr =>
    have htx : (s.com 0).tx = [] := by
      by_contra hne
      exact hlsr (lsr_transmit.mpr hne)
    have hload : (s.com 0).tx.length + (s.pending + 1) ≤ n := by
      rw [htx, List.length_nil]
      omega
    exact ⟨⟨h.lcr, h.fcr, h.taken, h.wire, h.said, hpending, Nat.le_succ_of_le hload⟩, rfl, rfl,
      List.prefix_refl _, fun _ => hload⟩
  | put b hpending =>
    have hroom := h.room
    have hwrite : (s.com 0).write .kdebug 0 b =
        { s.com 0 with
          tx := (s.com 0).tx ++ [(.kdebug, b)]
          put := (s.com 0).put ++ [(.kdebug, b)] } := by
      unfold Com.write Com.send
      rw [if_pos rfl, hdlab, hdepth, if_neg Bool.false_ne_true, if_pos (by omega)]
    rw [hwrite]
    refine ⟨⟨h.lcr, h.fcr, h.taken, ?_, ?_, Nat.le_trans (Nat.sub_le _ _) h.pending, ?_⟩, ?_, rfl,
      List.prefix_refl _,
      fun hload => ?_⟩
    · have hwire := h.wire
      simp only [Machine.set_com]
      rw [← List.append_assoc, hwire]
    · simp only [Machine.set_com]
      rw [bytesOf_append, h.said]
      rfl
    · simp only [Machine.set_com, List.length_append, List.length_singleton]
      omega
    · simp only [Machine.set_com]
      rw [bytesOf_append]
      exact List.append_nil _
    · simp only [Machine.set_com, List.length_append, List.length_singleton]
      omega

end Outside

/-! The driver. -/

section Driver
variable {n : Nat} {B : List UInt8 → List UInt8 → Prop} {w t : List UInt8} {c : UInt8}

theorem Mid.outside {s s' : Machine} (h : Mid n w t s) (ho : Outside n s s') : Mid n w t s' :=
  ⟨ho.sound, ho.put.trans h.put, ho.taken.trans h.taken⟩

theorem Mid.goes {s : Machine} (h : Mid n w t s) (hB : B w t) : Goes B n s := by
  refine ⟨h.sound, ?_⟩
  rw [h.put, h.taken]
  exact hB

/-- The transmitter has been seen empty. -/
def Clear (n : Nat) (w t : List UInt8) (s : Machine) : Prop :=
  Mid n w t s ∧ (s.com 0).tx.length + s.pending ≤ n

/-- A byte has been seen. -/
def Ready (n : Nat) (w t : List UInt8) (s : Machine) : Prop := Mid n w t s ∧ (s.com 0).rx ≠ []

theorem stable_mid (hn : n ≤ 15) (hB : B w t) : Stable (device n) (Goes B n) (Mid n w t) :=
  ⟨fun _ h => h.goes hB, fun _ _ _ h hstep => h.outside (h.sound.outside hn hstep)⟩

theorem stable_clear (hn : n ≤ 15) (hB : B w t) : Stable (device n) (Goes B n) (Clear n w t) := by
  refine ⟨fun _ h => h.1.goes hB, fun s e s' h hstep => ?_⟩
  have ho := h.1.sound.outside hn hstep
  exact ⟨h.1.outside ho, ho.load h.2⟩

theorem stable_ready (hn : n ≤ 15) (hB : B w t) : Stable (device n) (Goes B n) (Ready n w t) := by
  refine ⟨fun _ h => h.1.goes hB, fun s e s' h hstep => ?_⟩
  have ho := h.1.sound.outside hn hstep
  refine ⟨h.1.outside ho, fun hnil => h.2 ?_⟩
  have hrx := ho.rx
  rw [hnil] at hrx
  exact List.prefix_nil.mp hrx

theorem decode_base : decode (ioports.getD 0 0) = some (0, 0) := by decide

theorem Clear.write {s : Machine} (hn : n ≤ 15) (h : Clear n w t s) (c : UInt8) :
    Mid n (w ++ [c]) t ((device n).write (ioports.getD 0 0) c s) := by
  obtain ⟨⟨hsound, hput, htaken⟩, hload⟩ := h
  have hsend : (s.com 0).write .hal 0 c =
      { s.com 0 with tx := (s.com 0).tx ++ [(.hal, c)], put := (s.com 0).put ++ [(.hal, c)] } := by
    unfold Com.write Com.send
    rw [if_pos rfl, dlab_open hsound.lcr, depth_open hsound.fcr, if_neg Bool.false_ne_true,
      if_pos (by omega)]
  have hwrite : (device n).write (ioports.getD 0 0) c s = s.set 0 ((s.com 0).write .hal 0 c) := by
    simp only [device, decode_base]
  rw [hwrite, hsend]
  refine ⟨⟨hsound.lcr, hsound.fcr, hsound.taken, ?_, ?_, hsound.pending, ?_⟩, ?_, htaken⟩
  · have hwire := hsound.wire
    simp only [Machine.set_com]
    rw [← List.append_assoc, hwire]
  · simp only [Machine.set_com]
    rw [bytesOf_append, hsound.said]
    exact List.append_nil _
  · simp only [Machine.set_com, List.length_append, List.length_singleton]
    show (s.com 0).tx.length + 1 + s.pending ≤ n + 1
    omega
  · simp only [Machine.set_com]
    rw [bytesOf_append, hput]
    rfl

theorem Ready.read {s : Machine} (h : Ready n w t s) :
    Mid n w (t ++ [((device n).read (ioports.getD 0 0) s).1])
      ((device n).read (ioports.getD 0 0) s).2 := by
  obtain ⟨⟨hsound, hput, htaken⟩, hne⟩ := h
  obtain ⟨b, rest, hrx⟩ := List.exists_cons_of_ne_nil hne
  have htake : (s.com 0).read 0 =
      (b, { s.com 0 with rx := rest, taken := (s.com 0).taken ++ [b] }) := by
    unfold Com.read
    rw [if_pos rfl, dlab_open hsound.lcr, if_neg Bool.false_ne_true, hrx]
  have hread : (device n).read (ioports.getD 0 0) s =
      (((s.com 0).read 0).1, s.set 0 ((s.com 0).read 0).2) := by
    simp only [device, decode_base]
  rw [hread, htake]
  refine ⟨⟨hsound.lcr, hsound.fcr, ?_, hsound.wire, hsound.said, hsound.pending, hsound.room⟩, hput,
    ?_⟩
  · have hall := hsound.taken
    rw [hrx] at hall
    simp only [Machine.set_com, List.append_assoc, List.singleton_append]
    exact hall
  · simp only [Machine.set_com]
    rw [htaken]

theorem read_lsr (s : Machine) : (device n).read (0x3F8 + 5) s = ((s.com 0).lsr, s) := by
  have hport : decode (0x3F8 + 5) = some (0, 5) := decode_ioports (i := 0) (by omega) (by decide)
  simp only [device, hport]
  exact Prod.ext rfl (Machine.set_self s 0)

/-- A loop that polls the line status; `P` holds of the port once the bit is seen. -/
theorem triple_busyLoop {mask : UInt8} {P : Machine → Prop} (hn : n ≤ 15) (hB : B w t)
    (hstable : Stable (device n) (Goes B n) P)
    (hseen : ∀ s, Mid n w t s → (s.com 0).lsr &&& mask ≠ 0 → P s) :
    Triple (device n) (Goes B n) (Mid n w t) (busyLoop (0x3F8 + 5) mask) fun _ => P := by
  refine triple_iter (J := fun _ => Mid n w t) (R := fun _ => P)
    (fun _ => stable_mid hn hB) (fun _ => ?_)
    (fun u => (triple_pure hstable u).conseq (fun _ h => h) fun _ _ h => h.2) ()
  refine triple_inp (R := fun v s => if v &&& mask = 0 then Mid n w t s else P s) (stable_mid hn hB)
    (fun s hs => ?_) fun v => ?_
  · rw [read_lsr]
    by_cases hbit : (s.com 0).lsr &&& mask = 0
    · rw [if_pos hbit]
      exact hs
    · rw [if_neg hbit]
      exact hseen s hs hbit
  · by_cases hbit : v &&& mask = 0
    · simp only [if_pos hbit]
      refine (triple_pure (stable_mid hn hB) _).conseq (fun _ h => h) fun r s h => ?_
      rw [h.1]
      exact h.2
    · simp only [if_neg hbit]
      refine (triple_pure hstable _).conseq (fun _ h => h) fun r s h => ?_
      rw [h.1]
      exact h.2

theorem triple_putc {v : Device} (hv : v.port = 0) (hn : n ≤ 15) (hB : B w t)
    (hB' : B (w ++ [c]) t) :
    Triple (device n) (Goes B n) (Mid n w t) (uartPutc v c) fun _ => Mid n (w ++ [c]) t := by
  unfold uartPutc
  rw [hv, if_neg (by omega)]
  have hseen : ∀ s, Mid n w t s → (s.com 0).lsr &&& 0x20 ≠ 0 → Clear n w t s := by
    intro s hs hlsr
    have htx : (s.com 0).tx = [] := by
      by_contra hne
      exact hlsr (lsr_transmit.mpr hne)
    refine ⟨hs, ?_⟩
    rw [htx, List.length_nil, Nat.zero_add]
    exact hs.sound.pending
  refine triple_bind (triple_busyLoop hn hB (stable_clear hn hB) hseen) fun _ => ?_
  refine triple_out (stable_clear hn hB) (S := Mid n (w ++ [c]) t) (fun s hs => hs.write hn c) ?_
  exact (triple_pure (stable_mid hn hB') true).conseq (fun _ h => h) fun _ _ h => h.2

theorem triple_getc {v : Device} (hv : v.port = 0) (hn : n ≤ 15) (hB : B w t)
    (hB' : ∀ c, B w (t ++ [c])) :
    Triple (device n) (Goes B n) (Mid n w t) (uartGetc v) fun c => Mid n w (t ++ [c]) := by
  unfold uartGetc
  rw [hv, if_neg (by omega)]
  have hseen : ∀ s, Mid n w t s → (s.com 0).lsr &&& 0x01 ≠ 0 → Ready n w t s := by
    intro s hs hlsr
    exact ⟨hs, fun hnil => hlsr (lsr_receive.mpr hnil)⟩
  refine triple_bind (triple_busyLoop hn hB (stable_ready hn hB) hseen) fun _ => ?_
  refine triple_inp (stable_ready hn hB) (R := fun c => Mid n w (t ++ [c]))
    (fun s hs => hs.read) fun c => ?_
  refine (triple_pure (stable_mid hn (hB' c)) c).conseq (fun _ h => h) fun _ _ h => ?_
  rw [h.1]
  exact h.2

end Driver

/-! The HAL. -/

section HalRules
variable {n : Nat} {B : List UInt8 → List UInt8 → Prop} {w t : List UInt8} {c : UInt8}
    {h : Hal} {m : Memory}

theorem triple_halPutc (hv : (h.uart 0).port = 0) (hn : n ≤ 15) (hB : B w t)
    (hB' : B (w ++ [c]) t) :
    Triple (device n) (Goes B n) (Mid n w t) (h.uartPutc 0 c) fun _ => Mid n (w ++ [c]) t := by
  unfold Hal.uartPutc
  rw [if_neg (by omega)]
  exact triple_putc hv hn hB hB'

theorem triple_halGetc (hv : (h.uart 0).port = 0) (hn : n ≤ 15) (hB : B w t)
    (hB' : ∀ c, B w (t ++ [c])) :
    Triple (device n) (Goes B n) (Mid n w t) (h.uartGetc 0) fun c => Mid n w (t ++ [c]) := by
  unfold Hal.uartGetc
  rw [if_neg (by omega)]
  exact triple_getc hv hn hB hB'

/-- Before the character at `p`, the ones in front of it have been put. -/
def Putting (n s : Nat) (cs w t : List UInt8) (p : Nat) (σ : Machine) : Prop :=
  ∃ done, (∃ rest, cs = done ++ rest ∧ p = s + done.length) ∧ Mid n (w ++ done) t σ

theorem triple_puts {s : Nat} {cs : List UInt8} (hv : (h.uart 0).port = 0) (hn : n ≤ 15)
    (hs : CStr m s cs)
    (hB : ∀ done, done <+: cs → B (w ++ done) t) :
    Triple (device n) (Goes B n) (Mid n w t) (h.uartPuts m 0 s) fun _ => Mid n (w ++ cs) t := by
  have hstable : ∀ p, Stable (device n) (Goes B n) (Putting n s cs w t p) := by
    intro p
    apply Stable.some
    intro done
    apply Stable.given
    rintro ⟨rest, hcs, _⟩
    exact stable_mid hn (hB done ⟨rest, hcs.symm⟩)
  have hstart : ∀ σ, Mid n w t σ → Putting n s cs w t s σ := fun σ hσ =>
    ⟨[], ⟨cs, rfl, rfl⟩, (List.append_nil w).symm ▸ hσ⟩
  refine Triple.conseq (triple_iter (R := fun _ => Mid n (w ++ cs) t) hstable (fun p => ?_)
    (fun _ => ?_) s) hstart
    fun _ _ h => h
  · apply triple_some
    intro done
    apply triple_given
    rintro ⟨rest, rfl, rfl⟩
    have hdone : B (w ++ done) t := hB done (List.prefix_append _ _)
    cases rest with
    | nil =>
      have hend : m (s + done.length) = 0 := CStr.nil_iff.mp (CStr.drop hs)
      rw [if_pos hend, List.append_nil]
      exact triple_end (stable_mid hn hdone) fun _ h => h
    | cons c rest =>
      obtain ⟨hc, hne, _⟩ := CStr.cons_iff.mp (CStr.drop hs)
      have hmore : B (w ++ done ++ [c]) t := by
        rw [List.append_assoc]
        exact hB _ ⟨rest, by simp⟩
      rw [hc, if_neg hne]
      refine triple_bind (triple_halPutc hv hn hdone hmore) fun _ =>
        triple_end (stable_mid hn hmore) fun σ hσ => ?_
      refine ⟨done ++ [c], ⟨rest, by simp, by simp [Nat.add_assoc]⟩, ?_⟩
      rw [← List.append_assoc]
      exact hσ
  · exact triple_end (stable_mid hn (hB cs (List.prefix_refl cs))) fun _ h => h

/-- What `uart_gets` has in its buffer. -/
structure Buffer (m₀ : Memory) (des maxlen : Nat) (line : List UInt8) (m : Memory) : Prop where
  typed : Typed line
  stored : Stored m des line
  out : ∀ x, x < des ∨ des + maxlen ≤ x → m x = m₀ x

/-- The line that was read, and the bytes that were taken for it. -/
structure Got (m₀ : Memory) (des maxlen : Nat) (line : List UInt8) (r : Nat × Memory) : Prop where
  len : r.1 = line.length
  typed : Typed line
  str : CStr r.2 des line
  out : ∀ x, x < des ∨ des + maxlen ≤ x → r.2 x = m₀ x

/-- A line ends with a character for that, or when the buffer is full. -/
def Ends (maxlen : Nat) (line t : List UInt8) : Prop :=
  (∃ c, IsEnd c ∧ line.length + 1 < maxlen ∧ t = line ++ [c]) ∨ line.length + 1 = maxlen ∧ t = line

theorem Typed.nonzero {line : List UInt8} (h : Typed line) : ∀ c ∈ line, c ≠ 0 :=
  fun c hc hzero => h c hc (.inl hzero)

theorem stored_snoc {m : Memory} {a : Nat} {line : List UInt8} (h : Stored m a line) (c : UInt8) :
    Stored (m.writeBytes (a + line.length) [c]) a (line ++ [c]) := by
  refine stored_append.mpr ⟨?_, stored_writeBytes⟩
  rw [stored_iff] at h ⊢
  rw [← h, readBytes_length]
  apply readBytes_congr
  intro x hlo hhi
  exact writeBytes_out (.inl hhi)

theorem Buffer.more {m₀ m : Memory} {des maxlen : Nat} {line : List UInt8}
    (h : Buffer m₀ des maxlen line m)
    (hc : ¬IsEnd c) (hroom : line.length < maxlen) :
    Buffer m₀ des maxlen (line ++ [c]) (m.writeBytes (des + line.length) [c]) := by
  refine ⟨h.typed.snoc hc, stored_snoc h.stored c, fun x hx => ?_⟩
  rw [writeBytes_out (by simp only [List.length_singleton]; omega)]
  exact h.out x hx

theorem Buffer.close {m₀ m : Memory} {des maxlen : Nat} {line : List UInt8}
    (h : Buffer m₀ des maxlen line m)
    (hroom : line.length < maxlen) : Got m₀ des maxlen line
    (line.length, m.writeBytes (des + line.length) [0]) := by
  refine ⟨rfl, h.typed, ⟨stored_snoc h.stored 0, h.typed.nonzero⟩, fun x hx => ?_⟩
  show m.writeBytes (des + line.length) [0] x = m₀ x
  rw [writeBytes_out (by simp only [List.length_singleton]; omega)]
  exact h.out x hx

/-- What is put back of a line. -/
def echoed (echo : Bool) (line : List UInt8) : List UInt8 := if echo then line else []

/-- In front of a turn of the loop of `uart_gets`. -/
def Listening (n : Nat) (echo : Bool) (m₀ : Memory) (des maxlen : Nat) (w t : List UInt8)
    (r : Nat × Memory) (σ : Machine) :
    Prop :=
  ∃ line, (r.1 = line.length ∧ Buffer m₀ des maxlen line r.2 ∧ line.length + 1 < maxlen) ∧
    Mid n (w ++ echoed echo line) (t ++ line) σ

theorem triple_echo {echo : Bool} {line : List UInt8} (hv : (h.uart 0).port = 0) (hn : n ≤ 15)
    (hB : B (w ++ echoed echo line) t) (hB' : B (w ++ echoed echo (line ++ [c])) t) :
    Triple (device n) (Goes B n) (Mid n (w ++ echoed echo line) t)
      (if echo then h.uartPutc 0 c else .pure true)
      fun _ => Mid n (w ++ echoed echo (line ++ [c])) t := by
  cases echo with
  | false => exact triple_end (stable_mid hn hB) fun _ h => h
  | true =>
    simp only [echoed, if_true] at hB hB' ⊢
    rw [← List.append_assoc] at hB' ⊢
    exact triple_halPutc hv hn hB hB'

theorem triple_gets {des maxlen : Nat} {echo : Bool} (hv : (h.uart 0).port = 0) (hn : n ≤ 15)
    (hmax : 2 ≤ maxlen)
    (hB : ∀ line, Typed line → line.length + 1 ≤ maxlen → B (w ++ echoed echo line) (t ++ line))
    (hheard : ∀ line c, Typed line → line.length + 1 < maxlen →
    B (w ++ echoed echo line) (t ++ (line ++ [c]))) :
    Triple (device n) (Goes B n) (Mid n w t) (h.uartGets 0 des maxlen echo m) fun r σ =>
      ∃ line u, (Got m des maxlen line r ∧ Ends maxlen line u) ∧ Mid n (w ++ echoed echo line)
          (t ++ u) σ := by
  unfold Hal.uartGets
  rw [if_neg (by omega), if_neg (by omega)]
  have hstable : ∀ r, Stable (device n) (Goes B n) (Listening n echo m des maxlen w t r) := by
    intro r
    apply Stable.some
    intro line
    apply Stable.given
    rintro ⟨_, hbuffer, hroom⟩
    exact stable_mid hn (hB line hbuffer.typed (Nat.le_of_lt hroom))
  have hdone : ∀ r line u, Got m des maxlen line r → Ends maxlen line u →
      Stable (device n) (Goes B n) (Mid n (w ++ echoed echo line) (t ++ u)) := by
    intro r line u hgot hends
    apply stable_mid hn
    rcases hends with ⟨c, _, hroom, rfl⟩ | ⟨hfull, rfl⟩
    · exact hheard line c hgot.typed hroom
    · exact hB u hgot.typed (Nat.le_of_eq hfull)
  have hstart : ∀ σ, Mid n w t σ → Listening n echo m des maxlen w t (0, m) σ := by
    intro σ hσ
    refine ⟨[], ⟨rfl, ⟨fun _ hc => absurd hc List.not_mem_nil, trivial, fun _ _ => rfl⟩, hmax⟩, ?_⟩
    have hnone : echoed echo [] = [] := by
      unfold echoed
      split <;> rfl
    rw [hnone, List.append_nil, List.append_nil]
    exact hσ
  refine Triple.conseq (triple_iter (R := fun r σ => ∃ line u,
    (Got m des maxlen line r ∧ Ends maxlen line u) ∧
    Mid n (w ++ echoed echo line) (t ++ u) σ) hstable (fun r => ?_) (fun r => ?_) (0, m)) hstart
      fun _ _ h => h
  · apply triple_some
    intro line
    apply triple_given
    rintro ⟨hlen, hbuffer, hroom⟩
    have hhere := hB line hbuffer.typed (Nat.le_of_lt hroom)
    have hafter := fun c => hheard line c hbuffer.typed hroom
    simp only [← List.append_assoc] at hafter
    refine triple_bind (triple_halGetc hv hn hhere hafter) fun c => ?_
    have hmid := stable_mid hn (hafter c)
    by_cases hc : c = 0 ∨ c = 13 ∨ c = 10
    · rw [if_pos hc]
      refine triple_end hmid fun σ hσ => ⟨line, line ++ [c], ⟨?_, .inl ⟨c, hc, hroom, rfl⟩⟩, ?_⟩
      · rw [hlen]
        exact hbuffer.close (by omega)
      · rw [← List.append_assoc]
        exact hσ
    · rw [if_neg hc]
      have hnext := hB (line ++ [c]) (hbuffer.typed.snoc hc)
        (by simp only [List.length_append, List.length_singleton]; omega)
      have hecho := triple_echo hv hn (hafter c) (by rw [← List.append_assoc] at hnext; exact hnext)
      have hgo : Stable (device n) (Goes B n)
          (Mid n (w ++ echoed echo (line ++ [c])) (t ++ line ++ [c])) := by
        apply stable_mid hn
        rw [List.append_assoc]
        exact hnext
      refine triple_bind hecho fun _ => ?_
      have hmore := hbuffer.more hc (by omega)
      simp only [hlen]
      by_cases hfull : line.length + 1 + 1 ≥ maxlen
      · rw [if_pos hfull]
        have hlast := hmore.close (by simp only [List.length_append, List.length_singleton]; omega)
        simp only [List.length_append, List.length_singleton, ← Nat.add_assoc] at hlast
        refine triple_end hgo fun σ hσ => ⟨line ++ [c], line ++ [c], ⟨hlast, .inr ⟨?_, rfl⟩⟩, ?_⟩
        · simp only [List.length_append, List.length_singleton]
          omega
        · rw [← List.append_assoc t]
          exact hσ
      · rw [if_neg hfull]
        refine triple_end hgo fun σ hσ => ⟨line ++ [c], ⟨?_, hmore, ?_⟩, ?_⟩
        · rw [List.length_append, List.length_singleton]
        · rw [List.length_append, List.length_singleton]
          omega
        · rw [← List.append_assoc t]
          exact hσ
  · apply triple_some
    intro line
    apply triple_some
    intro u
    apply triple_given
    rintro ⟨hgot, hends⟩
    exact triple_end (hdone r line u hgot hends) fun σ hσ => ⟨line, u, ⟨hgot, hends⟩, hσ⟩

end HalRules

/-! The loop of `kmain`. -/

/-- Before a byte is taken all that the bytes before it call for has been put, and nothing else
is. -/
def Answers (w t : List UInt8) : Prop := (∀ u c, t = u ++ [c] → session u <+: w) ∧ w <+: session t

section Sessions
variable {w t u line : List UInt8} {c : UInt8}

theorem Answers.puts {cs done : List UInt8} (h : Answers w t) (hall : w ++ cs <+: session t)
    (hdone : done <+: cs) :
    Answers (w ++ done) t :=
  ⟨fun u c ht => (h.1 u c ht).trans (List.prefix_append w done),
    ((List.prefix_append_right_inj w).mpr hdone).trans hall⟩

theorem session_append : session (t ++ u) = session t ++ talk nameSize
    (lineAfter nameSize [] t) u := by
  unfold session
  rw [talk_append, List.append_assoc]

theorem session_line (ht : lineAfter nameSize [] t = []) (hline : Typed line)
    (hroom : line.length + 1 < nameSize) :
    session (t ++ line) = session t ++ line ∧ lineAfter nameSize [] (t ++ line) = line := by
  have hempty : talk nameSize [] line = line ∧ lineAfter nameSize [] line = [] ++ line :=
    talk_line hline (by simpa using hroom)
  obtain ⟨htalk, hafter⟩ := hempty
  rw [session_append, lineAfter_append, ht, htalk, hafter]
  exact ⟨rfl, rfl⟩

theorem answers_heard (ht : lineAfter nameSize [] t = []) (hline : Typed line)
    (hroom : line.length + 1 < nameSize) :
    Answers (session t ++ line) (t ++ (line ++ [c])) := by
  obtain ⟨hsession, _⟩ := session_line ht hline hroom
  rw [← hsession, ← List.append_assoc]
  refine ⟨fun u b hu => ?_, session_prefix⟩
  obtain ⟨rfl, _⟩ := List.append_inj' hu rfl
  exact List.prefix_refl _

theorem answers_line (ht : lineAfter nameSize [] t = []) (hline : Typed line)
    (hroom : line.length + 1 ≤ nameSize) :
    Answers (session t ++ line) (t ++ line) := by
  rcases List.eq_nil_or_concat line with rfl | ⟨l, c, rfl⟩
  · rw [List.append_nil, List.append_nil]
    exact ⟨fun u c hu => hu ▸ session_prefix, List.prefix_refl _⟩
  · rw [List.concat_eq_append] at hline hroom ⊢
    rw [List.length_append, List.length_singleton] at hroom
    have hl : Typed l := fun b hb => hline b (List.mem_append_left _ hb)
    have hc : ¬IsEnd c := hline c (List.mem_append_right _ (List.mem_singleton_self c))
    obtain ⟨hsession, hafter⟩ := session_line ht hl (by omega)
    refine ⟨fun u b hu => ?_, ?_⟩
    · rw [← List.append_assoc] at hu ⊢
      obtain ⟨rfl, _⟩ := List.append_inj' hu rfl
      rw [hsession]
      exact List.prefix_append _ _
    · rw [← List.append_assoc, ← List.append_assoc, session_append, hafter, hsession]
      apply (List.prefix_append_right_inj _).mpr
      unfold talk hear
      rw [if_neg hc]
      split
      · exact ⟨reply (l ++ [c]) ++ what ++ talk nameSize [] [], by simp⟩
      · exact List.prefix_append _ _

theorem session_ends (ht : lineAfter nameSize [] t = []) (hline : Typed line)
    (h : Ends nameSize line u) :
    session (t ++ u) = session t ++ line ++ (reply line ++ what) ∧ lineAfter nameSize []
      (t ++ u) = [] := by
  rcases h with ⟨c, hc, hroom, rfl⟩ | ⟨hfull, rfl⟩
  · obtain ⟨hsession, hafter⟩ := session_line ht hline hroom
    have hhear : hear nameSize line c = (reply line ++ what, []) := if_pos hc
    rw [← List.append_assoc, session_append, lineAfter_append (t := t ++ line), hafter, hsession]
    simp only [talk, lineAfter, hhear, List.append_nil]
    exact ⟨trivial, trivial⟩
  · rcases List.eq_nil_or_concat u with rfl | ⟨l, c, rfl⟩
    · cases hfull
    · rw [List.concat_eq_append] at hline hfull ⊢
      rw [List.length_append, List.length_singleton] at hfull
      have hl : Typed l := fun b hb => hline b (List.mem_append_left _ hb)
      have hc : ¬IsEnd c := hline c (List.mem_append_right _ (List.mem_singleton_self c))
      obtain ⟨hsession, hafter⟩ := session_line ht hl (by omega)
      have hhear : hear nameSize l c = (c :: reply (l ++ [c]) ++ what, []) := by
        unfold hear
        rw [if_neg hc, if_pos (by omega)]
      rw [← List.append_assoc, session_append, lineAfter_append (t := t ++ l), hafter, hsession]
      simp only [talk, lineAfter, hhear, List.append_nil]
      exact ⟨by simp, trivial⟩

theorem answers_ends (ht : lineAfter nameSize [] t = []) (hline : Typed line)
    (h : Ends nameSize line u) :
    Answers (session t ++ line) (t ++ u) := by
  rcases h with ⟨c, _, hroom, rfl⟩ | ⟨hfull, rfl⟩
  · exact answers_heard ht hline hroom
  · exact answers_line ht hline (Nat.le_of_eq hfull)

theorem Answers.all {cs rest : List UInt8} (h : Answers w t)
    (hall : w ++ (cs ++ rest) = session t) :
    (∀ done, done <+: cs → Answers (w ++ done) t) ∧ Answers (w ++ cs) t := by
  have hprefix : w ++ cs <+: session t := by
    rw [← hall, ← List.append_assoc]
    exact List.prefix_append _ _
  exact ⟨fun done hdone => h.puts hprefix hdone, h.puts hprefix (List.prefix_refl cs)⟩

end Sessions

section Greet
variable {n : Nat} {h : Hal} {k : Frame} {m : Memory} {w t : List UInt8}

/-- A string that no byte of `name` belongs to. -/
def Beside (k : Frame) (m : Memory) (a : Nat) (cs : List UInt8) : Prop :=
  CStr m a cs ∧ (a + cs.length < k.name ∨ k.name + nameSize ≤ a)

/-- The strings of the loop are in memory beside its buffer. -/
structure Strings (k : Frame) (m : Memory) : Prop where
  what : Beside k m k.what what
  hello : Beside k m k.hello hello
  two : Beside k m k.two two
  one : Beside k m k.one one

theorem Beside.kept {m' : Memory} {a : Nat} {cs : List UInt8} (hs : Beside k m a cs)
    (hout : ∀ x, x < k.name ∨ k.name + nameSize ≤ x → m' x = m x) : Beside k m' a cs := by
  obtain ⟨⟨hstored, hne⟩, hbeside⟩ := hs
  refine ⟨⟨?_, hne⟩, hbeside⟩
  rw [stored_iff] at hstored ⊢
  rw [← hstored, readBytes_length]
  apply readBytes_congr
  intro x hlo hhi
  rw [List.length_append, List.length_singleton] at hhi
  apply hout
  omega

theorem Strings.kept {m' : Memory} (hs : Strings k m)
    (hout : ∀ x, x < k.name ∨ k.name + nameSize ≤ x → m' x = m x) :
    Strings k m' :=
  ⟨hs.what.kept hout, hs.hello.kept hout, hs.two.kept hout, hs.one.kept hout⟩

/-- In front of the question. -/
def Asking (n : Nat) (k : Frame) (m : Memory) (s : Machine) : Prop :=
  ∃ w t, (Strings k m ∧ w ++ what = session t ∧ lineAfter nameSize [] t = [] ∧ Answers w t) ∧
    Mid n w t s

theorem stable_asking (hn : n ≤ 15) (m : Memory) :
    Stable (device n) (Goes Answers n) (Asking n k m) := by
  apply Stable.some
  intro w
  apply Stable.some
  intro t
  apply Stable.given
  rintro ⟨_, _, _, hanswers⟩
  exact stable_mid hn hanswers

theorem triple_greet (hv : (h.uart 0).port = 0) (hn : n ≤ 15) :
    Triple (device n) (Goes Answers n) (Asking n k m) (greet h k m) fun _ _ => False := by
  refine triple_iter (R := fun _ _ => False) (stable_asking hn) (fun m => ?_) nofun m
  apply triple_some
  intro w
  apply triple_some
  intro t
  apply triple_given
  rintro ⟨hs, hw, ht, hanswers⟩
  have hask := triple_puts hv hn hs.what.1 fun done hdone =>
    hanswers.puts (hw ▸ List.prefix_refl _) hdone
  rw [hw] at hask
  refine triple_bind hask fun _ => ?_
  have hgets : Triple (device n) (Goes Answers n) (Mid n (session t) t)
      (h.uartGets 0 k.name nameSize true m) _ :=
    triple_gets hv hn (by decide) (fun line hline hroom => answers_line ht hline hroom)
      fun line c hline hroom => answers_heard ht hline hroom
  refine triple_bind hgets fun ⟨len, m'⟩ => ?_
  apply triple_some
  intro line
  apply triple_some
  intro u
  apply triple_given
  rintro ⟨hgot, hends⟩
  obtain ⟨hsession, hafter⟩ := session_ends ht hgot.typed hends
  have hkept := hs.kept hgot.out
  have hline := answers_ends ht hgot.typed hends
  have hecho : echoed true line = line := rfl
  rw [hecho]
  dsimp only
  have hend : ∀ w', w' ++ what = session (t ++ u) → Answers w' (t ++ u) →
      Triple (device n) (Goes Answers n) (Mid n w' (t ++ u)) (.pure (.inl m' : Memory ⊕ Empty))
        fun q s => q.elim (Asking n k · s) fun _ => False :=
    fun w' hw' hanswers' => triple_end (stable_mid hn hanswers') fun s hmid =>
      ⟨w', t ++ u, ⟨hkept, hw', hafter, hanswers'⟩, hmid⟩
  by_cases hnil : line = []
  · have hlen : ¬len > 0 := by
      rw [show len = line.length from hgot.len, hnil]
      exact Nat.lt_irrefl 0
    have hreply : reply line = one := if_pos hnil
    have hall : session t ++ line ++ (one ++ what) = session (t ++ u) := by rw [hsession, hreply]
    have hone := hline.all hall
    rw [if_neg hlen]
    refine triple_bind (triple_puts hv hn hkept.one.1 hone.1) fun _ => ?_
    exact hend _ ((List.append_assoc _ _ _).trans hall) hone.2
  · have hlen : len > 0 := by
      rw [show len = line.length from hgot.len]
      exact List.length_pos_iff.mpr hnil
    have hreply : reply line = hello ++ line ++ two := if_neg hnil
    have hfirst : session t ++ line ++ (hello ++ (line ++ (two ++ what))) = session (t ++ u) := by
      rw [hsession, hreply]
      simp
    have hhello := hline.all hfirst
    have hname := hhello.2.all ((List.append_assoc _ _ _).trans hfirst)
    have htwo := hname.2.all ((List.append_assoc _ _ _).trans
      ((List.append_assoc _ _ _).trans hfirst))
    rw [if_pos hlen]
    refine triple_bind (triple_puts hv hn hkept.hello.1 hhello.1) fun _ => ?_
    refine triple_bind (triple_puts hv hn hgot.str hname.1) fun _ => ?_
    refine triple_bind (triple_puts hv hn hkept.two.1 htwo.1) fun _ => ?_
    refine hend _ ?_ htwo.2
    simpa using hfirst

end Greet

/-! `probe_uart`, while no other thread runs. -/

/-- A port as `uart_open` leaves it: 38400 baud, eight bits, and the FIFOs empty since then but for
what has come in. -/
structure Opened (c : Com) : Prop where
  lcr : c.lcr = 0x03
  divisor : c.dll = 0x03 ∧ c.dlm = 0x00
  fcr : c.fcr = 0xC7
  mcr : c.mcr = 0x0B
  rx : c.rx = c.accepted
  taken : c.taken = []
  tx : c.tx = []
  put : c.put = []
  wire : c.wire = []

/-- What a byte that comes in or goes out does not change. -/
structure Calm (Q : Com → Prop) : Prop where
  receive : ∀ c b, Q c → Q (c.receive b)
  transmit : ∀ c x rest, Q c → c.tx = x :: rest → Q { c with tx := rest, wire := c.wire ++ [x] }

/-- The ports below one are open, and `Q` holds of that one. -/
structure Probing (Q : Com → Prop) (port : Nat) (s : Machine) : Prop where
  pending : s.pending = 0
  said : s.said = []
  opened : ∀ i < port, Opened (s.com i)
  here : Q (s.com port)

section Probe
variable {Q K : Com → Prop} {port driver : Nat} {α : Type} {next : Prog UInt8 α}
    {R : α → Machine → Prop}

theorem receive_regs (c : Com) (b : UInt8) : (c.receive b).lcr = c.lcr ∧ (c.receive b).dll = c.dll ∧
    (c.receive b).dlm = c.dlm ∧ (c.receive b).fcr = c.fcr ∧ (c.receive b).mcr = c.mcr ∧
    (c.receive b).taken = c.taken ∧ (c.receive b).tx = c.tx ∧ (c.receive b).put = c.put ∧
    (c.receive b).wire = c.wire := by
  unfold Com.receive
  split <;> exact ⟨rfl, rfl, rfl, rfl, rfl, rfl, rfl, rfl, rfl⟩

theorem receive_rx {c : Com} (h : c.rx = c.accepted) (b : UInt8) :
    (c.receive b).rx = (c.receive b).accepted := by
  unfold Com.receive
  split
  · exact congrArg (· ++ [b]) h
  · exact h

theorem calm_opened : Calm Opened := by
  constructor
  · intro c b h
    obtain ⟨hlcr, hdll, hdlm, hfcr, hmcr, htaken, htx, hput, hwire⟩ := receive_regs c b
    exact ⟨hlcr.trans h.lcr, ⟨hdll.trans h.divisor.1, hdlm.trans h.divisor.2⟩, hfcr.trans h.fcr,
      hmcr.trans h.mcr,
      receive_rx h.rx b, htaken.trans h.taken, htx.trans h.tx, hput.trans h.put, hwire.trans h.wire⟩
  · intro c x rest h htx
    rw [h.tx] at htx
    cases htx

theorem stable_probing (hQ : Calm Q) : Stable (device 0) (fun _ => True) (Probing Q port) := by
  refine ⟨fun _ _ => trivial, fun s e s' h hstep => ?_⟩
  have hset : ∀ i c, (∀ Q, Calm Q → Q (s.com i) → Q c) → Probing Q port (s.set i c) := by
    intro i c hc
    refine ⟨h.pending, h.said, fun j hj => ?_, ?_⟩
    · by_cases hji : j = i
      · subst hji
        rw [Machine.set_com]
        exact hc Opened calm_opened (h.opened j hj)
      · rw [Machine.set_other hji]
        exact h.opened j hj
    · by_cases hpi : port = i
      · subst hpi
        rw [Machine.set_com]
        exact hc Q hQ h.here
      · rw [Machine.set_other hpi]
        exact h.here
  cases hstep with
  | arrive i b => exact hset i _ fun Q hQ hc => hQ.receive _ b hc
  | transmit htx => exact hset _ _ fun Q hQ hc => hQ.transmit _ _ _ hc htx
  | poll hpending _ => omega
  | put b hpending =>
    have hzero := h.pending
    omega

theorem triple_register {reg : UInt16} {v : UInt8} (hport : port < 4) (hreg : reg < 8) (hQ : Calm Q)
    (hwrite : ∀ c, Q c → K (c.write .hal reg v))
    (hnext : Triple (device 0) (fun _ => True) (Probing K port) next R) :
    Triple (device 0) (fun _ => True) (Probing Q port)
      (.out (ioports.getD port 0 + reg) v next) R := by
  refine triple_out (stable_probing hQ) (fun s hs => ?_) hnext
  have heq : (device 0).write (ioports.getD port 0 + reg) v s = s.set port
      ((s.com port).write .hal reg v) := by
    simp only [device, decode_ioports hport hreg]
  rw [heq]
  refine ⟨hs.pending, hs.said, fun j hj => ?_, ?_⟩
  · rw [Machine.set_other (Nat.ne_of_lt hj)]
    exact hs.opened j hj
  · rw [Machine.set_com]
    exact hwrite _ hs.here

/-- What the line settings are. -/
def Line (lcr : UInt8) (dll dlm : Option UInt8) (c : Com) : Prop :=
  c.lcr = lcr ∧ (∀ v ∈ dll, c.dll = v) ∧ ∀ v ∈ dlm, c.dlm = v

theorem calm_line (lcr : UInt8) (dll dlm : Option UInt8) : Calm (Line lcr dll dlm) := by
  refine ⟨fun c b h => ?_, fun c x rest h _ => h⟩
  obtain ⟨hlcr, hdll, hdlm, _⟩ := receive_regs c b
  exact ⟨hlcr.trans h.1, fun v hv => hdll.trans (h.2.1 v hv), fun v hv => hdlm.trans (h.2.2 v hv)⟩

/-- The port is open but for the modem control. -/
def Almost (c : Com) : Prop := Opened { c with mcr := 0x0B }

theorem calm_almost : Calm Almost := by
  refine ⟨fun c b h => ?_, fun c x rest h htx => ?_⟩
  · have hswap : { c.receive b with mcr := 0x0B } = ({ c with mcr := 0x0B } : Com).receive b := by
      have hdepth : ({ c with mcr := 0x0B } : Com).depth = c.depth := rfl
      unfold Com.receive
      rw [hdepth]
      by_cases hroom : c.rx.length < c.depth
      · rw [if_pos hroom, if_pos hroom]
      · rw [if_neg hroom, if_neg hroom]
    unfold Almost
    rw [hswap]
    exact calm_opened.receive _ b h
  · have hnil : c.tx = [] := h.tx
    rw [hnil] at htx
    cases htx

theorem calm_true : Calm fun _ => True := ⟨fun _ _ _ => trivial, fun _ _ _ _ _ => trivial⟩

theorem triple_uartOpen (hport : port < 4) (hd : driver ≠ 0) (v : Device) :
    Triple (device 0) (fun _ => True) (Probing (fun _ => True) port)
      (uartOpen driver v port) fun r s =>
      r = (true, ⟨driver, port⟩) ∧ Probing Opened port s := by
  have hdlab : ∀ {c : Com} {dll dlm}, Line 0x80 dll dlm c → c.dlab = true := by
    intro c dll dlm h
    unfold Com.dlab
    rw [h.1]
    rfl
  unfold uartOpen
  rw [if_neg (by omega)]
  refine triple_register hport (by decide) calm_true (K := fun _ => True) (fun _ _ => trivial) ?_
  refine triple_register hport (by decide) calm_true (K := Line 0x80 none none)
    (fun c _ => ⟨rfl, nofun, nofun⟩) ?_
  refine triple_register hport (by decide) (calm_line _ _ _) (K := Line 0x80 (some 0x03) none)
    (fun c h => ?_) ?_
  · unfold Com.write
    rw [if_pos rfl, if_pos (hdlab h)]
    refine ⟨h.1, fun v hv => ?_, nofun⟩
    cases hv
    rfl
  refine triple_register hport (by decide) (calm_line _ _ _)
    (K := Line 0x80 (some 0x03) (some 0x00)) (fun c h => ?_) ?_
  · unfold Com.write
    rw [if_neg (by decide), if_pos rfl, if_pos (hdlab h)]
    refine ⟨h.1, h.2.1, fun v hv => ?_⟩
    cases hv
    rfl
  refine triple_register hport (by decide) (calm_line _ _ _)
    (K := Line 0x03 (some 0x03) (some 0x00))
    (fun c h => ⟨rfl, h.2.1, h.2.2⟩) ?_
  refine triple_register hport (by decide) (calm_line _ _ _) (K := Almost) (fun c h => ?_) ?_
  · exact ⟨h.1, ⟨h.2.1 _ rfl, h.2.2 _ rfl⟩, rfl, rfl, rfl, rfl, rfl, rfl, rfl⟩
  refine triple_register hport (by decide) calm_almost (K := Opened) (fun c h => h) ?_
  exact triple_end (stable_probing calm_opened) fun s hs => ⟨rfl, hs⟩

/-- The port that is opened next. -/
def Next (driver : Nat) (r : Nat × Hal) (s : Machine) : Prop :=
  (r.1 ≤ 4 ∧ r.2.driver = driver ∧ ∀ i < r.1, r.2.uart i = ⟨driver, i⟩) ∧
    Probing (fun _ => True) r.1 s

theorem triple_probeUart {h : Hal} (hd : h.driver ≠ 0) :
    Triple (device 0) (fun _ => True) (Probing (fun _ => True) 0) h.probeUart fun r s =>
      (r.1 = true ∧ ∀ i < 4, r.2.uart i = ⟨h.driver, i⟩) ∧ Probing (fun _ => True) 4 s := by
  have hstable : ∀ r, Stable (device 0) (fun _ => True) (Next h.driver r) := fun r =>
    Stable.given fun _ => stable_probing calm_true
  refine Triple.conseq (triple_iter (R := fun h' s => (∀ i < 4, h'.uart i = ⟨h.driver, i⟩) ∧
    Probing (fun _ => True) 4 s)
    hstable (fun r => ?_) (fun h' => ?_) (0, h)) (fun s hs => ⟨⟨Nat.zero_le 4, rfl, nofun⟩, hs⟩)
      fun _ _ h => h
  · apply triple_given
    rintro ⟨hle, hdriver, hopened⟩
    obtain ⟨port, h'⟩ := r
    dsimp only at hle hdriver hopened ⊢
    by_cases hlt : port < 4
    · rw [if_pos hlt, hdriver]
      refine triple_bind (triple_uartOpen hlt hd (h'.uart port)) fun ⟨opened, v⟩ => ?_
      apply triple_given
      intro heq
      cases heq
      refine triple_end (stable_probing calm_opened) fun s hs =>
        ⟨⟨hlt, hdriver, fun i hi => ?_⟩, ?_⟩
      · by_cases hi' : i = port
        · subst hi'
          exact if_pos rfl
        · exact (if_neg hi').trans (hopened i (Nat.lt_of_le_of_ne (Nat.le_of_lt_succ hi) hi'))
      · refine ⟨hs.pending, hs.said, fun i hi => ?_, trivial⟩
        by_cases hi' : i = port
        · subst hi'
          exact hs.here
        · exact hs.opened i (Nat.lt_of_le_of_ne (Nat.le_of_lt_succ hi) hi')
    · rw [if_neg hlt]
      obtain rfl : port = 4 := by omega
      exact triple_end (stable_probing calm_true) fun s hs => ⟨hopened, hs⟩
  · apply triple_given
    intro hopened
    exact triple_end (stable_probing calm_true) fun s hs => ⟨⟨rfl, hopened⟩, hs⟩

end Probe

/-! From `probe_uart` on. -/

theorem asking_of_opened {n : Nat} {k : Frame} {m : Memory} {s : Machine} (hk : Strings k m)
    (hs : Probing (fun _ => True) 4 s) : Asking n k m s := by
  have hopen := hs.opened 0 (by omega)
  have hsound : Sound n s := by
    refine ⟨hopen.lcr, hopen.fcr, ?_, ?_, ?_, ?_, ?_⟩
    · rw [hopen.taken, hopen.rx]
      rfl
    · rw [hopen.wire, hopen.tx, hopen.put]
      rfl
    · rw [hopen.put, hs.said]
      rfl
    · rw [hs.pending]
      exact Nat.zero_le n
    · rw [hopen.tx, hs.pending]
      exact Nat.zero_le _
  refine ⟨[], [], ⟨hk, rfl, rfl, fun u b hu => absurd hu (by simp), List.nil_prefix⟩, hsound,
    ?_, hopen.taken⟩
  rw [hopen.put]
  rfl

/-- Whatever the ports were like before. -/
theorem conversation_loses_nothing {n : Nat} {h : Hal} {r : Bool × Hal} {k : Frame} {m : Memory}
    {s₀ s₁ s₂ : Machine}
    {as bs : List (Act UInt8 Event)} {q : Prog UInt8 Empty} (hn : n ≤ 15) (hd : h.driver ≠ 0)
    (hk : Strings k m)
    (hpending : s₀.pending = 0) (hsaid : s₀.said = [])
    (hprobe : Run (Step (device 0)) (s₀, h.probeUart) as (s₁, .pure r))
    (hrun : Run (Step (device n)) (s₁, greet r.2 k m) bs (s₂, q)) :
    let c := s₂.com 0
    c.taken ++ c.rx = c.accepted ∧ c.wire ++ c.tx = c.put ∧ bytesOf .kdebug c.put = s₂.said ∧
      bytesOf .hal c.put <+: session c.taken ∧ ∀ u b, c.taken = u ++ [b] →
          session u <+: bytesOf .hal c.put := by
  have hstart : Probing (fun _ => True) 0 s₀ := ⟨hpending, hsaid, nofun, trivial⟩
  obtain ⟨⟨_, huart⟩, hopened⟩ := (triple_probeUart hd s₀ hstart _ _ _ hprobe).2 _ rfl
  have hport : (r.2.uart 0).port = 0 := congrArg Device.port (huart 0 (by omega))
  obtain ⟨hsound, hanswers⟩ := (triple_greet hport hn s₁ (asking_of_opened hk hopened) _ _ _ hrun).1
  exact ⟨hsound.taken, hsound.wire, hsound.said, hanswers.2, hanswers.1⟩

/-- Ports as the firmware may leave them. -/
def smallMachine : Machine where
  com _ := ⟨0x0F, 0x00, 0x83, 0x00, 0x0C, 0x00, [0x41], [(.hal, 0x42)], [], [], [], []⟩
  pending := 0
  said := []

def smallHal : Hal := ⟨0x7000, fun _ => ⟨0, 0⟩⟩

def smallFrame : Frame := ⟨0x100, 0x200, 0x300, 0x400, 0x1000⟩

def smallMemory : Memory :=
  (((writeBytes (fun _ => 0) 0x100 what).writeBytes 0x200 hello).writeBytes
    0x300 two).writeBytes 0x400 one

theorem smallStrings : Strings smallFrame smallMemory := by
  have hbeside : ∀ a cs, readBytes smallMemory a (cs ++ [0]).length = cs ++ [0] ∧
    cs.all (· ≠ 0) = true ∧
      a + cs.length < 0x1000 → Beside smallFrame smallMemory a cs := by
    intro a cs h
    refine ⟨⟨stored_iff.mpr h.1, fun c hc => ?_⟩, .inl h.2.2⟩
    exact of_decide_eq_true (List.all_eq_true.mp h.2.1 c hc)
  exact ⟨hbeside _ _ (by decide), hbeside _ _ (by decide), hbeside _ _ (by decide),
    hbeside _ _ (by decide)⟩

/-- The port as the program accesses it, with a byte going out after each step. -/
def Machine.transmitted (s : Machine) : Machine :=
  match (s.com 0).tx with
  | [] => s
  | x :: rest => s.set 0 { s.com 0 with tx := rest, wire := (s.com 0).wire ++ [x] }

def served (n : Nat) : Nat → Machine × Prog UInt8 Empty → Machine × Prog UInt8 Empty
  | 0, c => c
  | k + 1, c => served n k ((next (device n) c).1.transmitted, (next (device n) c).2)

theorem run_transmitted {n : Nat} (s : Machine) (p : Prog UInt8 Empty) :
    ∃ as, Run (Step (device n)) (s, p) as (s.transmitted, p) := by
  unfold Machine.transmitted
  cases htx : (s.com 0).tx with
  | nil => exact ⟨[], .nil _⟩
  | cons x rest => exact ⟨_, .single (.env (.transmit htx))⟩

theorem run_served (n k : Nat) (c : Machine × Prog UInt8 Empty) :
    ∃ as, Run (Step (device n)) c as (served n k c) := by
  induction k generalizing c with
  | zero => exact ⟨[], .nil c⟩
  | succ k ih =>
    obtain ⟨as, hstep⟩ := run_steps (d := device n) 1 c
    obtain ⟨bs, hout⟩ := run_transmitted (n := n) (next (device n) c).1 (next (device n) c).2
    obtain ⟨cs, hrest⟩ := ih ((next (device n) c).1.transmitted, (next (device n) c).2)
    exact ⟨_, hstep.append (hout.append hrest)⟩

def smallProbed : Machine := (steps (device 0) 33 (smallMachine, smallHal.probeUart)).1

def smallOpened : Hal :=
  match (steps (device 0) 33 (smallMachine, smallHal.probeUart)).2 with
  | .pure r => r.2
  | _ => smallHal

theorem run_ends {n k : Nat} {α : Type} {s : Machine} {p : Prog UInt8 α} {t : Machine}
    {q : Prog UInt8 α}
    (ht : (steps (device n) k (s, p)).1 = t) (hq : (steps (device n) k (s, p)).2 = q) :
    ∃ as, Run (Step (device n)) (s, p) as (t, q) := by
  subst ht hq
  exact run_steps k (s, p)

theorem run_probed : ∃ as, Run (Step (device 0)) (smallMachine, smallHal.probeUart) as
    (smallProbed, .pure (true, smallOpened)) :=
  run_ends (k := 33) rfl rfl

def Machine.arrived (s : Machine) (b : UInt8) : Machine := s.set 0 ((s.com 0).receive b)

/-- A thread has polled and put its byte. -/
def Machine.talked (s : Machine) (b : UInt8) : Machine :=
  { s.set 0 ((s.com 0).write .kdebug 0 b) with pending := s.pending + 1 - 1, said := s.said ++ [b] }

theorem run_talked {n : Nat} {s : Machine} (b : UInt8) (hpending : s.pending < n)
    (hlsr : (s.com 0).lsr &&& 0x20 ≠ 0) (p : Prog UInt8 Empty) :
    ∃ as, Run (Step (device n)) (s, p) as (s.talked b, p) := by
  have hpoll : Env n s .poll { s with pending := s.pending + 1 } := .poll hpending hlsr
  have hput : Env n { s with pending := s.pending + 1 } (.put b) (s.talked b) :=
    .put b (Nat.succ_pos _)
  exact ⟨_, .cons (.env hpoll) (.single (.env hput))⟩

theorem run_arrived {n : Nat} (s : Machine) (b : UInt8) (p : Prog UInt8 Empty) :
    ∃ as, Run (Step (device n)) (s, p) as (s.arrived b, p) := by
  have harrive : Env n s (.arrive 0 b) (s.arrived b) := .arrive 0 b
  exact ⟨_, .single (.env harrive)⟩

/-- A thread puts `!`, then `A` and a carriage return come in, and the program goes on. -/
def spoken (n k : Nat) (s : Machine) (p : Prog UInt8 Empty) : Machine × Prog UInt8 Empty :=
  served n k (((s.talked 0x21).arrived 0x41).arrived 0x0D, p)

theorem run_spoken {n k : Nat} {s t : Machine} {p : Prog UInt8 Empty} (hpending : s.pending < n)
    (hlsr : (s.com 0).lsr &&& 0x20 ≠ 0) (ht : (spoken n k s p).1 = t) :
    ∃ as q, Run (Step (device n)) (s, p) as (t, q) := by
  subst ht
  obtain ⟨_, htalked⟩ := run_talked 0x21 hpending hlsr p
  obtain ⟨_, hname⟩ := run_arrived (n := n) (s.talked 0x21) 0x41 p
  obtain ⟨_, hreturn⟩ := run_arrived (n := n) ((s.talked 0x21).arrived 0x41) 0x0D p
  obtain ⟨_, hserved⟩ := run_served n k (((s.talked 0x21).arrived 0x41).arrived 0x0D, p)
  exact ⟨_, _, htalked.append (hname.append (hreturn.append hserved))⟩

def smallSpoken : Machine := (spoken 15 300 smallProbed
    (greet smallOpened smallFrame smallMemory)).1

/-- The loop has asked, taken the name, answered and asked again. -/
theorem conversation_loses_nothing_small :
    (smallSpoken.com 0).taken = [0x41, 0x0D] ∧ bytesOf .kdebug (smallSpoken.com 0).put = [0x21] ∧
    bytesOf .hal (smallSpoken.com 0).put = what ++ [0x41] ++ hello ++ [0x41] ++ two ++ what ∧
    (smallSpoken.com 0).taken ++ (smallSpoken.com 0).rx = (smallSpoken.com 0).accepted ∧
    (smallSpoken.com 0).wire ++ (smallSpoken.com 0).tx = (smallSpoken.com 0).put ∧
    bytesOf .hal (smallSpoken.com 0).put <+: session (smallSpoken.com 0).taken := by
  obtain ⟨as, hprobe⟩ := run_probed
  have hspoken : (spoken 15 300 smallProbed (greet smallOpened smallFrame smallMemory)).1 =
    smallSpoken := rfl
  obtain ⟨bs, q, hrun⟩ := run_spoken (by decide) (by decide) hspoken
  obtain ⟨htaken, hwire, _, hprefix, _⟩ :=
    conversation_loses_nothing (Nat.le_refl 15) (by decide) smallStrings rfl rfl hprobe hrun
  exact ⟨by decide +kernel, by decide +kernel, by decide +kernel, htaken, hwire, hprefix⟩

end OsdevCourse.Uart
