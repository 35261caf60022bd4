import Chunos.Kernel.Format
import Chunos.Lib.Cyclic
import Chunos.Lib.Runs

/-!
# The log buffer of printk

Every message that the kernel prints is also copied to a ring of 8192 bytes. `tail` is the
place of the next byte, `head` the place of the oldest one, and `total` counts the bytes that
were ever written, which is how `update_log_buffer` knows that the ring is full. As long as
no message ends with the last byte of the ring and the count fits in an `int`, the ring read
from `head` shows the end of everything printed.
-/

namespace Chunos.Printk

open Runs Cyclic List

/-- The bytes of the ring. -/
def logBufferSize : ℕ := 8192

/-- The `log_buffer`, without its lock. `total` is an `int`. -/
structure LogBuffer where
  head : ℕ
  tail : ℕ
  total : ℤ
  buf : ℕ → UInt8

/-- The `log_buffer_init` function. The bytes stay what they are. -/
def logBufferInit (lb : LogBuffer) : LogBuffer := { lb with head := 0, tail := 0, total := 0 }

/-- How many bytes of a message go behind `tail`, and how many to the front of the ring. -/
def splitLen (tail printed : ℕ) : ℕ × ℕ :=
  if tail + printed > logBufferSize - 1 then
    (logBufferSize - tail, printed - (logBufferSize - tail))
  else (printed, 0)

/-- The `update_log_buffer` function. -/
def updateLogBuffer (msg : List UInt8) (lb : LogBuffer) : LogBuffer :=
  let (len1, len2) := splitLen lb.tail msg.length
  let buf := if len1 ≠ 0 then copyAt lb.buf lb.tail (msg.take len1) else lb.buf
  let buf := if len2 ≠ 0 then copyAt buf 0 ((msg.drop len1).take len2) else buf
  let total := (lb.total + msg.length).bmod (2 ^ 32)
  if len2 ≠ 0 then { head := len2, tail := len2, total := total, buf := buf }
  else
    { head := if total > logBufferSize then lb.tail + len1 else lb.head
      tail := lb.tail + len1
      total := total
      buf := buf }

/-- One message after another. -/
def logStep (msg : List UInt8) (lb : LogBuffer) : Option LogBuffer := some (updateLogBuffer msg lb)

/-- The bytes read cyclically from `head`: as many as were written, at most the whole ring. -/
def readLog (lb : LogBuffer) : List UInt8 :=
  window logBufferSize lb.buf lb.head (min lb.total logBufferSize).toNat

/-- The ring shows what was printed: both places are inside of it, and it reads as the last
bytes of the log. -/
structure Shows (lb : LogBuffer) (log : List UInt8) : Prop where
  head : lb.head < logBufferSize
  tail : lb.tail < logBufferSize
  total : lb.total = log.length
  bytes : readLog lb = log.drop (log.length - min log.length logBufferSize)

/-- The message ends before or behind the last byte of the ring, and the count of all bytes
fits in an `int`. -/
def Fits (msg : List UInt8) (lb : LogBuffer) : Prop :=
  lb.tail + msg.length ≠ logBufferSize ∧ lb.total + msg.length < 2 ^ 31

instance (msg : List UInt8) (lb : LogBuffer) : Decidable (Fits msg lb) :=
  inferInstanceAs (Decidable (_ ∧ _))

/-- Where the ring stands after a log was written to it: `tail` is at the length of the log
modulo the size, and `head` is there too once the ring is full. -/
structure Tracks (lb : LogBuffer) (log : List UInt8) : Prop where
  total : lb.total = log.length
  tail : lb.tail = log.length % logBufferSize
  head : lb.head = (log.length - min log.length logBufferSize) % logBufferSize
  records : Records logBufferSize lb.buf log

variable {lb : LogBuffer} {log msg : List UInt8}

theorem Tracks.shows (h : Tracks lb log) : Shows lb log := by
  have hsize : 0 < logBufferSize := by decide
  refine ⟨?_, ?_, h.total, ?_⟩
  · rw [h.head]
    exact Nat.mod_lt _ hsize
  · rw [h.tail]
    exact Nat.mod_lt _ hsize
  · have hcount : (min lb.total logBufferSize).toNat = min log.length logBufferSize := by
      rw [h.total]
      omega
    rw [readLog, hcount, h.head, window_mod]
    exact h.records.window_eq

/-- A message that passes the end is copied in two pieces. -/
theorem updateLogBuffer_across (htail : lb.tail < logBufferSize)
    (hend : logBufferSize < lb.tail + msg.length) :
    updateLogBuffer msg lb =
      { head := lb.tail + msg.length - logBufferSize
        tail := lb.tail + msg.length - logBufferSize
        total := (lb.total + msg.length).bmod (2 ^ 32)
        buf := copyAt (copyAt lb.buf lb.tail (msg.take (logBufferSize - lb.tail))) 0
          (msg.drop (logBufferSize - lb.tail)) } := by
  have hlen2 : msg.length - (logBufferSize - lb.tail) = lb.tail + msg.length - logBufferSize := by
    omega
  have hsplit : splitLen lb.tail msg.length =
      (logBufferSize - lb.tail, lb.tail + msg.length - logBufferSize) := by
    rw [← hlen2]
    exact if_pos (by omega)
  have hfirst : logBufferSize - lb.tail ≠ 0 := by omega
  have hsecond : lb.tail + msg.length - logBufferSize ≠ 0 := by omega
  have hrest : (msg.drop (logBufferSize - lb.tail)).take
      (lb.tail + msg.length - logBufferSize) = msg.drop (logBufferSize - lb.tail) := by
    apply take_of_length_le
    rw [length_drop]
    omega
  simp only [updateLogBuffer, hsplit, if_pos hfirst, if_pos hsecond, hrest]

/-- A message that fits is appended to the log that the ring tracks. -/
theorem Tracks.updateLogBuffer (h : Tracks lb log) (hmsg : 0 < msg.length ∧ msg.length < 1024)
    (hfits : Fits msg lb) : Tracks (updateLogBuffer msg lb) (log ++ msg) := by
  obtain ⟨hend, hcount⟩ := hfits
  have hmod := Nat.mod_lt log.length (show 0 < logBufferSize by decide)
  have hlen : (log ++ msg).length = log.length + msg.length := length_append
  have htotal : (lb.total + msg.length).bmod (2 ^ 32) = ((log ++ msg).length : ℤ) := by
    rw [h.total] at hcount ⊢
    rw [hlen, Int.bmod_eq_of_le] <;> omega
  rw [h.tail] at hend
  rcases Nat.lt_or_gt_of_ne hend with hinside | hacross
  · have hsplit : splitLen (log.length % logBufferSize) msg.length = (msg.length, 0) :=
      if_neg (by omega)
    simp only [Printk.updateLogBuffer, h.tail, hsplit, hmsg.1.ne', ne_eq, not_false_eq_true, if_true,
      not_true_eq_false, if_false, take_length, htotal, h.head]
    refine ⟨rfl, ?_, ?_, h.records.append_inside hinside.le⟩
    · rw [hlen, mod_add_of_lt hinside]
    · by_cases hfull : ((log ++ msg).length : ℤ) > logBufferSize
      · rw [if_pos hfull]
        simp only [logBufferSize] at hfull hinside ⊢
        omega
      · rw [if_neg hfull]
        simp only [logBufferSize] at hfull hinside ⊢
        omega
  · rw [updateLogBuffer_across (by rw [h.tail]; exact hmod) (by rw [h.tail]; exact hacross),
      htotal, h.tail]
    have hsize : msg.length < logBufferSize := by
      simp only [logBufferSize]
      omega
    have htail := mod_add_of_le hacross.le hsize
    refine ⟨rfl, ?_, ?_, h.records.append_across hsize hacross.le⟩
    · rw [hlen, htail]
    · simp only [logBufferSize] at hmod hacross ⊢
      omega

/-- A sequence of messages that fit is appended to the log that the ring tracks. -/
theorem Tracks.run_logStep {msgs : List (List UInt8)} (h : Tracks lb log)
    (hmsgs : ∀ msg ∈ msgs, 0 < msg.length ∧ msg.length < 1024) (hfits : Meets logStep Fits msgs lb) :
    ∃ lb', run logStep msgs lb = some lb' ∧ Tracks lb' (log ++ msgs.flatten) := by
  induction msgs generalizing lb log with
  | nil =>
    refine ⟨lb, rfl, ?_⟩
    rw [flatten_nil, append_nil]
    exact h
  | cons msg msgs ih =>
    have hnext := h.updateLogBuffer (hmsgs msg mem_cons_self) hfits.1
    have hrest : ∀ msg' ∈ msgs, 0 < msg'.length ∧ msg'.length < 1024 := fun msg' hmem =>
      hmsgs msg' (mem_cons_of_mem msg hmem)
    obtain ⟨lb', hrun, htracks⟩ := ih hnext hrest (hfits.2 _ rfl)
    refine ⟨lb', run_cons_eq_some.mpr ⟨_, rfl, hrun⟩, ?_⟩
    rw [flatten_cons, ← append_assoc]
    exact htracks

/-- After `log_buffer_init`, every sequence of messages that fit leaves `head` and `tail`
inside of the ring, and the bytes read cyclically from `head` are the last bytes of the
messages. -/
theorem log_buffer_shows_messages (lb : LogBuffer) (msgs : List (List UInt8))
    (hmsgs : ∀ msg ∈ msgs, 0 < msg.length ∧ msg.length < 1024)
    (hfits : Meets logStep Fits msgs (logBufferInit lb)) :
    ∃ lb', run logStep msgs (logBufferInit lb) = some lb' ∧ Shows lb' msgs.flatten := by
  have hinit : Tracks (logBufferInit lb) [] := ⟨rfl, rfl, rfl, records_nil _ _⟩
  obtain ⟨lb', hrun, htracks⟩ := hinit.run_logStep hmsgs hfits
  exact ⟨lb', hrun, htracks.shows⟩

/-- A ring of zeros, as the image of the kernel has it. -/
def zeroed : LogBuffer := ⟨0, 0, 0, fun _ => 0⟩

/-- Nine messages of 1000 bytes each go once around the ring. -/
theorem log_buffer_shows_messages_nine :
    ∃ lb', run logStep (List.replicate 9 (List.replicate 1000 65)) (logBufferInit zeroed) =
      some lb' ∧ Shows lb' (List.replicate 9 (List.replicate 1000 65)).flatten :=
  log_buffer_shows_messages zeroed _ (by decide +kernel) (by decide +kernel)

/-- Sixteen messages of 512 bytes each end with the last byte of the ring, and `tail` is left
behind it. -/
theorem tail_leaves_log_buffer :
    let msgs : List (List UInt8) := List.replicate 16 (List.replicate 512 65)
    (∀ msg ∈ msgs, 0 < msg.length ∧ msg.length < 1024) ∧
      (run logStep msgs (logBufferInit zeroed)).map LogBuffer.tail = some 8192 ∧
      ¬ 8192 < logBufferSize := by
  decide +kernel

open Format

variable (level : ℕ)

/-- `is_digit`. -/
def isDigit (ch : UInt8) : Bool := ch ≤ 57 && 48 ≤ ch

/-- The format behind its level, unless the level is above `CONFIG_LOG_LEVEL`. -/
def shownFormat (fmt : CString) : Option CString :=
  if isDigit (byteAt fmt) then
    if (byteAt fmt - 48).toNat > level then none else some fmt.tail
  else some fmt

/-- `level_printk`, with its buffer of 1024 bytes: the result and the log buffer. -/
def levelPrintk (fmt : CString) (arg : List Arg) (lb : LogBuffer) : Option (ℕ × LogBuffer) :=
  match shownFormat level fmt with
  | none => some (0, lb)
  | some fmt => (vsprintf fmt arg).bind fun r =>
    if r.1.length ≤ 1024 then some (r.2, updateLogBuffer (r.1.take r.2) lb) else none

/-- One call after another. -/
def printkStep (call : CString × List Arg) (lb : LogBuffer) : Option LogBuffer :=
  (levelPrintk level call.1 call.2 lb).map Prod.snd

/-- The texts of the messages whose levels are shown. -/
def messages (calls : List (CString × List Arg)) : List (List UInt8) :=
  calls.filterMap fun call => (shownFormat level call.1).bind fun fmt => formatted fmt call.2

/-- If the level is shown, the format is usual, the arguments match it and the text fits in the
buffer of the function. -/
abbrev Printable (call : CString × List Arg) : Prop :=
  ∀ fmt ∈ shownFormat level call.1,
    usual fmt ∧ ∃ text ∈ formatted fmt call.2, 0 < text.length ∧ text.length < 1024

variable {level} {calls : List (CString × List Arg)}

/-- The calls of `level_printk` write the texts of the messages to the log buffer. -/
theorem run_printkStep (hcalls : ∀ call ∈ calls, Printable level call) (lb : LogBuffer) :
    run (printkStep level) calls lb = run logStep (messages level calls) lb := by
  unfold messages
  induction calls generalizing lb with
  | nil => rfl
  | cons call calls ih =>
    obtain ⟨hcall, hrest⟩ := forall_mem_cons.mp hcalls
    cases hshown : shownFormat level call.1 with
    | none => simp [run, printkStep, levelPrintk, hshown, ih hrest]
    | some fmt =>
      obtain ⟨husual, text, htext, -, hlen⟩ := hcall fmt hshown
      rw [Option.mem_def] at htext
      simp [run, printkStep, levelPrintk, hshown, vsprintf, vsprintfLoop_eq husual htext, htext,
        Nat.succ_le_of_lt hlen, logStep, ih hrest]

/-- After `log_buffer_init`, calls of `level_printk` leave the last bytes of the texts whose
levels are shown in the log buffer, when these texts fit. -/
theorem levelPrintk_runs_shown (lb : LogBuffer) (hcalls : ∀ call ∈ calls, Printable level call)
    (hfits : Meets logStep Fits (messages level calls) (logBufferInit lb)) :
    ∃ lb', run (printkStep level) calls (logBufferInit lb) = some lb' ∧
      Shows lb' (messages level calls).flatten := by
  have hinit : Tracks (logBufferInit lb) [] := ⟨rfl, rfl, rfl, records_nil _ _⟩
  have hlen : ∀ msg ∈ messages level calls, 0 < msg.length ∧ msg.length < 1024 := by
    intro msg hmsg
    obtain ⟨call, hmem, hcall⟩ := mem_filterMap.mp hmsg
    obtain ⟨fmt, hshown, htext⟩ := Option.bind_eq_some_iff.mp hcall
    obtain ⟨-, text, htext', hlen⟩ := hcalls call hmem fmt hshown
    rwa [Option.some.inj (htext.symm.trans htext')]
  obtain ⟨lb', hrun, htracks⟩ := hinit.run_logStep hlen hfits
  exact ⟨lb', (run_printkStep hcalls _).trans hrun, htracks.shows⟩

/-- The level of the second message is too high. -/
theorem levelPrintk_runs_shown_three :
    ∃ lb', run (printkStep 4) [(cstr "1ab", []), (cstr "8cd", []), (cstr "n%d", [.word 7])]
      (logBufferInit zeroed) = some lb' ∧ Shows lb' [97, 98, 110, 55] :=
  levelPrintk_runs_shown zeroed (by decide) (by decide +kernel)

end Chunos.Printk
