import Chunos.Syscall.Signal

/-!
# The delivery of signals

Signals are queued by `sys_kill`, passed to `os_do_signal` by `signal_handler` on the return
to user mode, and removed by `sys_sigreturn`, which the task may call at any time. A run here
keeps a record of this: queued signals are numbered in their order, and the numbers of those
that have been passed on and of those that have been removed are written down.
-/

namespace Chunos.Signal

open Chains Runs Function List Option

/-- The state of a run: the signals of the task, the number of the signal at an address, how
many signals have been queued, those that have been passed to `os_do_signal`, those that have
been removed, and whether a handler has been started while `in_signal` was set. -/
structure Delivery where
  signals : Signals
  number : ℕ → ℕ
  queued : ℕ
  delivered : List ℕ
  removed : List ℕ
  overlap : Bool

/-- One call, with its record. -/
def Delivery.step (call : SignalCall) (r : Delivery) : Option Delivery :=
  match call with
  | .handler =>
    (signalHandler r.signals).map fun (_, passed, s) =>
      match passed, r.signals.pending with
      | some _, some address =>
        { r with
          signals := s
          delivered := r.delivered ++ [r.number address]
          overlap := r.overlap || r.signals.inSignal != 0 }
      | _, _ => { r with signals := s }
  | .sigreturn =>
    (sysSigreturn r.signals).map fun s =>
      { r with
        signals := s
        removed := r.removed ++ (r.signals.pending.map r.number).toList }
  | call =>
    (Signals.step call r.signals).map fun s =>
      match call.appends r.signals with
      | none => { r with signals := s }
      | some address =>
        { r with
          signals := s
          number := update r.number address r.queued
          queued := r.queued + 1 }

/-- The start of a run. -/
def Delivery.boot : Delivery :=
  { signals := initSignalStruct, number := fun _ => 0, queued := 0, delivered := [], removed := []
    overlap := false }

/-- What is expected of every state: the signals are passed on in the order in which they are
queued and each at most once, a signal that is removed has been passed on, no handler has been
started while `in_signal` was set, and when it is not set the next signal is passed on. -/
structure Delivery.InOrder (r : Delivery) : Prop where
  order : r.delivered = List.range r.delivered.length
  queued : r.delivered.length ≤ r.queued
  removed : r.removed.Nodup ∧ r.removed ⊆ r.delivered
  alone : r.overlap = false
  next : r.signals.inSignal = 0 → r.delivered.length < r.queued →
    ∃ r', Delivery.step .handler r = some r' ∧ r'.delivered = r.delivered ++ [r.delivered.length]

/-- The condition: `sys_sigreturn` is called by a handler, the numbers of signals are not
negative, and when a signal is queued the count does not overflow and `plast` does not point
to a signal that has been removed. -/
def SignalCall.Orderly : SignalCall → Signals → Prop
  | .sigreturn, s => s.inSignal ≠ 0
  | call, s => call.Numbered ∧ (call.appends s ≠ none →
      s.signalPending.toNat < 65535 ∧ (s.pending = none → s.plast = none))

instance (call : SignalCall) (s : Signals) : Decidable (call.Orderly s) :=
  match call with
  | .sigreturn => inferInstanceAs (Decidable (s.inSignal ≠ 0))
  | .kill _ _ _ _ | .signal _ _ | .handler => inferInstanceAs (Decidable (_ ∧ (_ → _)))

/-- The numbers of the signals at the addresses. -/
def Signals.actionAt (s : Signals) : ℕ → Option ℤ := Option.map SignalAction.action ∘ s.memory

/-- The invariant of a run with these signals in the queue. -/
structure Delivery.Inv (r : Delivery) (queue : List ℕ) : Prop extends Queued r.signals queue where
  last : queue ≠ [] → r.signals.plast = queue.getLast?
  numbers : queue.map r.number = List.range' r.removed.length queue.length
  queued : r.queued = r.removed.length + queue.length
  removed : r.removed = List.range r.removed.length
  delivered : r.delivered = List.range (r.removed.length + if r.signals.inSignal = 0 then 0 else 1)
  busy : r.signals.inSignal ≠ 0 → queue ≠ []
  handlers : ∀ a ∈ queue, ∃ sig, r.signals.actionAt a = some sig ∧
    (r.signals.signalTable sig).handler ≠ 0
  handled : Handled r.signals.signalTable
  alone : r.overlap = false

variable {r : Delivery} {queue : List ℕ}

theorem Delivery.boot_inv : Delivery.boot.Inv [] where
  toQueued := initSignalStruct_ok.toQueued
  last h := absurd rfl h
  numbers := rfl
  queued := rfl
  removed := rfl
  delivered := rfl
  busy h := absurd rfl h
  handlers a ha := absurd ha (by simp)
  handled _ _ := Or.inr (by simp [Delivery.boot, initSignalStruct, sigHandlerDfl])
  alone := rfl

/-- The first signal of the queue, when no handler is running. -/
theorem Delivery.Inv.handler_first {a : ℕ} {rest : List ℕ} (h : r.Inv (a :: rest))
    (hin : r.signals.inSignal = 0) :
    Delivery.step .handler r = some { r with
      signals := { r.signals with inSignal := 1 }
      delivered := r.delivered ++ [r.removed.length] } := by
  obtain ⟨hpending, link, hlink, -⟩ := h.chain
  obtain ⟨sig, hsig, hhandler⟩ := h.handlers a mem_cons_self
  obtain ⟨action, haction, rfl⟩ := map_eq_some_iff.mp hsig
  have hcount : r.signals.signalPending ≠ 0 := by
    intro hzero
    have hlength := h.count
    simp [hzero] at hlength
  have hnumber : r.number a = r.removed.length := by
    have hnumbers := h.numbers
    rw [map_cons, length_cons, range'_succ] at hnumbers
    exact (cons.inj hnumbers).1
  simp only [Delivery.step, signalHandler_first hin hcount hpending haction, if_neg hhandler,
    map_some, hpending, hnumber, hin]
  simp

/-- The invariant gives what is expected. -/
theorem Delivery.Inv.inOrder (h : r.Inv queue) : r.InOrder := by
  have hlength : r.delivered.length =
      r.removed.length + if r.signals.inSignal = 0 then 0 else 1 := by
    rw [h.delivered, length_range]
  have hbusy : r.signals.inSignal ≠ 0 → 0 < queue.length := fun hin =>
    length_pos_iff.mpr (h.busy hin)
  have hqueued := h.queued
  constructor
  · rw [hlength]
    exact h.delivered
  · rw [hlength]
    split_ifs with hin
    · omega
    · have := hbusy hin
      omega
  · rw [h.removed, h.delivered]
    exact ⟨nodup_range, range_subset.mpr (Nat.le_add_right _ _)⟩
  · exact h.alone
  · intro hin hlt
    rw [hlength, if_pos hin] at hlt ⊢
    cases queue with
    | nil =>
      rw [length_nil] at hqueued
      omega
    | cons a rest => exact ⟨_, h.handler_first hin, rfl⟩

/-- `signal_handler`. -/
theorem Delivery.Inv.handler (h : r.Inv queue) :
    ∃ r', Delivery.step .handler r = some r' ∧ r'.Inv queue := by
  -- Nothing is passed on while a handler runs, or when the queue is empty.
  have hquiet : (r.signals.inSignal ≠ 0 ∨ r.signals.signalPending = 0) →
      Delivery.step .handler r = some r := by
    intro hidle
    have hnone : signalHandler r.signals = some (0, none, r.signals) := by
      rw [signalHandler]
      rcases hidle with hin | hzero
      · rw [if_pos hin]
      · rw [if_neg (not_not.mpr hzero), ite_self]
    rw [Delivery.step, hnone]
    rfl
  by_cases hin : r.signals.inSignal = 0
  · cases queue with
    | nil =>
      have hzero : r.signals.signalPending = 0 := BitVec.eq_of_toNat_eq (by simpa using h.count)
      exact ⟨r, hquiet (Or.inr hzero), h⟩
    | cons a rest =>
      refine ⟨_, h.handler_first hin, ?_⟩
      have hdelivered := h.delivered
      rw [if_pos hin, Nat.add_zero] at hdelivered
      exact { h with
        delivered := by simp [hdelivered, range_succ]
        busy := fun _ => by simp }
  · exact ⟨r, hquiet (Or.inl hin), h⟩

/-- `sys_signal`. -/
theorem Delivery.Inv.signal (h : r.Inv queue) {signum : ℤ} (hsignum : 0 ≤ signum) (handler : ℕ) :
    ∃ r', Delivery.step (.signal signum handler) r = some r' ∧ r'.Inv queue := by
  obtain ⟨old, table, hsignal, hkeep, hhandled⟩ := sysSignal_eq (s := r.signals) hsignum handler
  refine ⟨_, by simp only [Delivery.step, Signals.step, hsignal, map_some]; rfl, ?_⟩
  exact { h with
    handlers := fun a ha => by
      obtain ⟨sig, hsig, hne⟩ := h.handlers a ha
      exact ⟨sig, hsig, hkeep sig hne⟩
    handled := hhandled h.handled }

/-- `sys_sigreturn` in a handler. -/
theorem Delivery.Inv.sigreturn (h : r.Inv queue) (hin : r.signals.inSignal ≠ 0) :
    ∃ r' queue', Delivery.step .sigreturn r = some r' ∧ r'.Inv queue' := by
  cases queue with
  | nil => exact absurd rfl (h.busy hin)
  | cons a rest =>
    obtain ⟨link, hreturn, hchain, hcount⟩ := h.toQueued.sysSigreturn
    have hpending := h.chain.1
    have hnodup := h.chain.nodup
    have hnumbers := h.numbers
    rw [map_cons, length_cons, range'_succ, cons.injEq] at hnumbers
    have hqueued := h.queued
    rw [length_cons] at hqueued
    have hstep : Delivery.step .sigreturn r = some { r with
        signals := { r.signals with
          inSignal := 0
          pending := link
          signalPending := r.signals.signalPending - 1
          memory := update r.signals.memory a none }
        removed := r.removed ++ [r.removed.length] } := by
      simp only [Delivery.step, hreturn, map_some, hpending, toList_some, hnumbers.1]
    refine ⟨_, rest, hstep, ?_⟩
    have hlength : (r.removed ++ [r.removed.length]).length = r.removed.length + 1 := by simp
    exact
      { chain := hchain
        count := hcount
        last := fun hrest => by
          have hlast := h.last (by simp)
          cases rest with
          | nil => exact absurd rfl hrest
          | cons b rest => rwa [getLast?_cons_cons] at hlast
        numbers := by
          rw [hlength]
          exact hnumbers.2
        queued := by
          rw [hlength]
          simp only
          omega
        removed := by
          rw [hlength, range_succ, ← h.removed]
        delivered := by
          have hdelivered := h.delivered
          rw [if_neg hin] at hdelivered
          rw [hlength, if_pos rfl, Nat.add_zero]
          exact hdelivered
        busy := fun hzero => absurd rfl hzero
        handlers := fun b hb => by
          obtain ⟨sig, hsig, hne⟩ := h.handlers b (mem_cons_of_mem a hb)
          have hba : b ≠ a := by
            rintro rfl
            exact (nodup_cons.mp hnodup).1 hb
          refine ⟨sig, ?_, hne⟩
          simpa [Signals.actionAt, hba] using hsig
        handled := h.handled
        alone := h.alone }

theorem linkLast_actionAt {memory memory' : ℕ → Option SignalAction} {plast : Option ℕ} {a : ℕ}
    (h : linkLast memory plast a = some memory') :
    Option.map SignalAction.action ∘ memory' = Option.map SignalAction.action ∘ memory := by
  cases plast with
  | none =>
    obtain rfl := some.inj h
    rfl
  | some last =>
    obtain ⟨action, haction, rfl⟩ := map_eq_some_iff.mp h
    rw [comp_update]
    apply update_eq_self_iff.mpr
    simp [haction]

/-- `sys_kill`. -/
theorem Delivery.Inv.kill (h : r.Inv queue) {pid sig : ℤ} {found : Bool} {address : Option ℕ}
    (hfresh : (SignalCall.kill pid sig found address).Fresh r.signals)
    (hcall : (SignalCall.kill pid sig found address).Orderly r.signals) :
    ∃ r' queue', Delivery.step (.kill pid sig found address) r = some r' ∧ r'.Inv queue' := by
  obtain ⟨hnumber, hcond⟩ := hcall
  rcases sysKill_cases (s := r.signals) pid hnumber found address with
    ⟨a, happends, hkill⟩ | ⟨happends, ret, killed, hkill⟩
  · obtain ⟨hlt, hplast⟩ := hcond (by simp [happends])
    have hnew : r.signals.memory a = none := hfresh a happends
    have hqueue : QueueOk r.signals queue := by
      refine ⟨h.toQueued, ?_⟩
      cases queue with
      | nil => exact hplast h.chain
      | cons b rest => exact h.last (by simp)
    obtain ⟨memory, hlink, hchain⟩ := hqueue.linkLast hnew sig
    have hinstalled : r.signals.Installed sig := by
      simp only [SignalCall.appends, ite_none_right_eq_some] at happends
      exact happends.1.2.2
    have hmem : a ∉ queue := by
      intro hin
      obtain ⟨link, hlinked⟩ := h.chain.exists_of_mem hin
      simp [Signals.links, hnew] at hlinked
    refine ⟨_, queue ++ [a], by
      simp only [Delivery.step, Signals.step, hkill, appendAction, hlink, map_some,
        happends]; rfl, ?_⟩
    exact
      { chain := hchain
        count := by
          rw [length_append, length_singleton]
          exact (count_succ h.count).mpr (h.count ▸ hlt)
        last := fun _ => by simp
        numbers := by
          have hrest : queue.map (update r.number a r.queued) = queue.map r.number :=
            map_congr_left fun b hb => update_of_ne (ne_of_mem_of_not_mem hb hmem) _ _
          rw [map_append, hrest, h.numbers, length_append, length_singleton, range'_1_concat]
          simp [h.queued]
        queued := by
          have hqueued := h.queued
          rw [length_append, length_singleton]
          simp only
          omega
        removed := h.removed
        delivered := h.delivered
        busy := fun _ => by simp
        handlers := fun b hb => by
          have hactions := linkLast_actionAt hlink
          rw [comp_update] at hactions
          simp only [Signals.actionAt, hactions]
          by_cases hba : b = a
          · subst hba
            refine ⟨sig, by simp, fun hzero => ?_⟩
            rcases h.handled sig hzero with hign | hdfl
            · exact hign hinstalled.2.2.1
            · exact hdfl hinstalled.2.2.2
          · rw [update_of_ne hba]
            have hbq : b ∈ queue := by simpa [hba] using hb
            exact h.handlers b hbq
        handled := h.handled
        alone := h.alone }
  · refine ⟨_, queue, by
      simp only [Delivery.step, Signals.step, hkill, map_some, happends]; rfl, ?_⟩
    exact { h with }

theorem Delivery.Inv.step (h : r.Inv queue) {call : SignalCall} (hfresh : call.Fresh r.signals)
    (hcall : call.Orderly r.signals) :
    ∃ r', Delivery.step call r = some r' ∧ ∃ queue', r'.Inv queue' := by
  cases call with
  | kill pid sig found address =>
    obtain ⟨r', queue', hstep, h'⟩ := h.kill hfresh hcall
    exact ⟨r', hstep, queue', h'⟩
  | signal signum handler =>
    obtain ⟨r', hstep, h'⟩ := h.signal hcall.1 handler
    exact ⟨r', hstep, queue, h'⟩
  | handler =>
    obtain ⟨r', hstep, h'⟩ := h.handler
    exact ⟨r', hstep, queue, h'⟩
  | sigreturn =>
    obtain ⟨r', queue', hstep, h'⟩ := h.sigreturn hcall
    exact ⟨r', hstep, queue', h'⟩

/-- In every run whose calls meet the condition, each call completes, and after it the signals
have been passed to `os_do_signal` in order, each at most once and before it was removed, and
no two handlers at a time. -/
theorem signal_runs_inOrder (calls : List SignalCall)
    (hmeets : Meets Delivery.step (fun call r => call.Fresh r.signals ∧ call.Orderly r.signals)
      calls Delivery.boot) :
    ∃ r, run Delivery.step calls Delivery.boot = some r ∧ r.InOrder := by
  obtain ⟨r, hrun, queue, h⟩ := exists_run_of_meets
    (I := fun r : Delivery => ∃ queue, r.Inv queue)
    (fun call r hr hcall => by
      obtain ⟨queue, h⟩ := hr
      exact h.step hcall.1 hcall.2)
    ⟨[], Delivery.boot_inv⟩ hmeets
  exact ⟨r, hrun, h.inOrder⟩

/-- Two signals are handled one after the other, and a third one is queued meanwhile. -/
def handledSignals : List SignalCall :=
  [.signal 10 100, .kill 1 10 true (some 4), .kill 1 10 true (some 8), .handler, .handler,
    .kill 1 10 true (some 12), .sigreturn, .signal 10 1, .handler, .sigreturn]

/-- The calls meet the condition, and the signals have been passed on in order. -/
theorem signal_runs_inOrder_handledSignals :
    Meets Delivery.step (fun call r => call.Fresh r.signals ∧ call.Orderly r.signals)
      handledSignals Delivery.boot ∧
    ∃ r, run Delivery.step handledSignals Delivery.boot = some r ∧ r.InOrder := by
  have hmeets : Meets Delivery.step
      (fun call r => call.Fresh r.signals ∧ call.Orderly r.signals)
      handledSignals Delivery.boot := by
    decide +kernel
  exact ⟨hmeets, signal_runs_inOrder handledSignals hmeets⟩

/-- A task that calls `sys_sigreturn` outside of a handler removes a signal that has not been
passed on. -/
theorem sysSigreturn_undelivered :
    ∃ r, run Delivery.step [.signal 10 100, .kill 1 10 true (some 4), .sigreturn] Delivery.boot =
        some r ∧
      r.removed = [0] ∧ r.delivered = [] ∧ ¬ r.InOrder := by
  refine exists_some_imp (P := fun r => r.removed = [0] ∧ r.delivered = []) (by decide +kernel)
    fun r _ ⟨hremoved, hdelivered⟩ => ⟨hremoved, hdelivered, fun h => ?_⟩
  have hsub := h.removed.2
  rw [hremoved, hdelivered] at hsub
  simp at hsub

end Chunos.Signal
