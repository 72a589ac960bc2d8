import Mathlib.Algebra.Group.Int.Defs
import Mathlib.Algebra.Group.Nat.Defs
import Bitzer.Lib.Buffer
import Bitzer.Lib.Wp
import Bitzer.Task

/-!
# Log records

`_log` and `_log_stderr` with the formatting functions of `strutil.c`. A record
is built in a buffer on the stack; a store beyond its end faults, and so does a
`write` of a byte that was never stored.
-/

namespace Bitzer

open Lib

/-- `BZ_MAX_ERR_STR`. -/
def bzMaxErrStr : Nat := 1024

/-- `STDERR_FILENO`. -/
def stderrFileno : Int := 2

/-- `struct bz_log_s`, the members that `_log` uses. -/
structure BzLog where
  fd : Int
  nerr : UInt64

/-- What a format and its arguments come to: the whole text, or a failure that
leaves some bytes in the buffer. -/
inductive Formatted where
  | text (s : Str)
  | failed (code : Nat) (left : Str)

/-- The text; a failure counts as empty. -/
def Formatted.out : Formatted → Str
  | .text s => s
  | .failed _ _ => []

/-- The length of the text is an `int`. -/
def Formatted.Fits (o : Formatted) : Prop := o.out.length < 2 ^ 31

instance (o : Formatted) : Decidable o.Fits := inferInstanceAs (Decidable (_ < _))

/-- `buf`, the sizes that were passed to `vsnprintf`, `errno`, the log and the
records handed to `write`. -/
structure LogState where
  buf : Buffer UInt8
  sizes : List Nat
  errno : Int
  log : Option BzLog
  written : List (Int × Str)

/-- What the calls of `_log` answer: `errno` after the clock was read, the one
that formatting and `write` leave, and the result of `write`. -/
structure LogEnv where
  clockErrno : Int
  callErrno : Int
  result : Int

/-- `(int)` of a `size_t`. -/
def intOfSize (n : Nat) : Int := Int.bmod n (2 ^ 32)

/-- `(size_t)` of an `int`. -/
def sizeOfInt (n : Int) : Nat := (n % 2 ^ 64).toNat

/-- Store bytes at `buf + off`. -/
def storeBytes (off : Int) (s : Str) : Prog LogState Unit := fun σ =>
  if off < 0 then none
  else (σ.buf.write s off.toNat).map fun b => ((), { σ with buf := b })

/-- `vsnprintf(buf + off, size, …)`: at most `size - 1` bytes and a NUL, and the
length of the whole text. -/
def vsnprintf (off : Int) (size : Nat) (o : Formatted) : Prog LogState Int := do
  modify fun σ => { σ with sizes := σ.sizes ++ [size] }
  match o with
  | .text s =>
      if size ≠ 0 then
        storeBytes off (s.take (size - 1) ++ [0])
      return if s.length < 2 ^ 31 then s.length else -1
  | .failed code left =>
      storeBytes off (left.take size)
      return Int.negSucc code

/-- `_vscnprintf`. -/
def vscnprintf (off : Int) (size : Nat) (o : Formatted) : Prog LogState Int := do
  let n ← vsnprintf off size o
  return if n ≤ 0 then 0
    else if n < intOfSize size then n
    else intOfSize ((size + (2 ^ 64 - 1)) % 2 ^ 64)

/-- `_scnprintf`. -/
def scnprintf (off : Int) (size : Nat) (o : Formatted) : Prog LogState Int := vscnprintf off size o

/-- The automatic array `buf`: its bytes are indeterminate. -/
def enterFrame : Prog LogState Unit :=
  modify fun σ => { σ with buf := List.replicate bzMaxErrStr none, sizes := [] }

/-- `write(fd, buf, len)`. -/
def writeBuf (env : LogEnv) (fd len : Int) : Prog LogState Int := fun σ =>
  (σ.buf.read (sizeOfInt len)).map fun r =>
    (env.result, { σ with errno := env.callErrno, written := σ.written ++ [(fd, r)] })

/-- `buf[len++] = '\n'` and the `write` of the record. -/
def writeRecord (env : LogEnv) (fd len : Int) : Prog LogState Int := do
  storeBytes len [10]
  writeBuf env fd (len + 1)

/-- `_log`. -/
def log (env : LogEnv) (header message : Formatted) : Prog LogState Unit := do
  enterFrame
  match (← get).log with
  | none => return
  | some l =>
      if l.fd < 0 then
        return
      modify fun σ => { σ with errno := env.clockErrno }
      let errnoSave := (← get).errno
      let len : Int := 0
      let size : Int := bzMaxErrStr
      let n ← scnprintf len (sizeOfInt (size - len)) header
      let len := len + n
      let n ← vscnprintf len (sizeOfInt (size - len)) message
      let len := len + n
      if (← writeRecord env l.fd len) < 0 then
        modify fun σ => { σ with log := some { l with nerr := l.nerr + 1 } }
      modify fun σ => { σ with errno := errnoSave }

/-- `_log_stderr`. -/
def logStderr (env : LogEnv) (message : Formatted) : Prog LogState Unit := do
  enterFrame
  let len ← vscnprintf 0 bzMaxErrStr message
  let _ ← writeRecord env stderrFileno len

/-! ## The record -/

/-- The buffer starts with `s`, and no size was less than 1. -/
structure Built (s : Str) (σ : LogState) : Prop where
  starts : σ.buf.Starts s
  length : σ.buf.length = bzMaxErrStr
  sizes : ∀ n ∈ σ.sizes, 1 ≤ n

/-- The call is within its buffer and has handed the record `r` to `write`. -/
structure Recorded (fd : Int) (r : Str) (σ σ' : LogState) : Prop where
  written : σ'.written = σ.written ++ [(fd, r)]
  pos : 1 ≤ r.length
  le : r.length ≤ bzMaxErrStr
  built : Built r σ'

section
variable {σ : LogState} {s : Str} {o : Formatted} {env : LogEnv} {fd : Int}

theorem intOfSize_of_le {n : Nat} (h : n ≤ bzMaxErrStr) : intOfSize n = n := by
  unfold bzMaxErrStr at h
  unfold intOfSize
  rw [Int.bmod_def]
  split <;> omega

theorem sizeOfInt_sub {n : Nat} (h : n ≤ bzMaxErrStr) :
    sizeOfInt ((bzMaxErrStr : Int) - n) = bzMaxErrStr - n := by
  unfold bzMaxErrStr at h ⊢
  unfold sizeOfInt
  omega

theorem storeBytes_spec {t : Str} (h : Built s σ) (hfit : s.length + t.length ≤ bzMaxErrStr) :
    wp (storeBytes s.length t)
      (fun _ σ' => Built (s ++ t) σ' ∧ σ'.log = σ.log ∧ σ'.written = σ.written) σ := by
  rw [← h.length] at hfit
  obtain ⟨b, hw, hlen, hs⟩ := h.starts.write hfit
  have hrun : (storeBytes s.length t).run σ = some ((), { σ with buf := b }) := by
    show (if (s.length : Int) < 0 then none else (σ.buf.write t (Int.toNat s.length)).map _) = _
    rw [if_neg (by omega), Int.toNat_natCast, hw]
    rfl
  exact (wp_of_run hrun).mpr ⟨⟨hs, hlen.trans h.length, h.sizes⟩, rfl, rfl⟩

/-- `vsnprintf` keeps what is there, and appends the text as far as there is room. -/
theorem vsnprintf_spec {size : Nat} (h : Built s σ) (hpos : 1 ≤ size)
    (hsize : s.length + size ≤ bzMaxErrStr) (ho : o.Fits) :
    wp (vsnprintf s.length size o) (fun n σ' => (n = o.out.length ∨ n < 0 ∧ o.out = []) ∧
      Built (s ++ o.out.take (size - 1)) σ' ∧ σ'.log = σ.log ∧ σ'.written = σ.written) σ := by
  unfold vsnprintf
  refine (wp_bind ..).mpr ((wp_modify ..).mpr ?_)
  have h₁ : Built s { σ with sizes := σ.sizes ++ [size] } := by
    refine ⟨h.starts, h.length, fun n hn => ?_⟩
    rcases List.mem_append.mp hn with hn | hn
    · exact h.sizes n hn
    · rw [List.mem_singleton.mp hn]
      exact hpos
  cases o with
  | text t =>
      have hfit : s.length + (t.take (size - 1) ++ [0]).length ≤ bzMaxErrStr := by
        have := List.length_take_le (size - 1) t
        rw [List.length_append, List.length_singleton]
        omega
      have hlen : t.length < 2 ^ 31 := ho
      simp only [if_pos (show size ≠ 0 by omega), if_pos hlen]
      refine (wp_bind ..).mpr (wp_mono (storeBytes_spec h₁ hfit) ?_)
      rintro _ σ' ⟨⟨hs', hlen', hsizes'⟩, hlog', hwr'⟩
      refine (wp_pure ..).mpr ⟨Or.inl rfl, ⟨?_, hlen', hsizes'⟩, hlog', hwr'⟩
      exact Buffer.Starts.of_append (by rwa [List.append_assoc])
  | failed code left =>
      have hfit : s.length + (left.take size).length ≤ bzMaxErrStr := by
        have := List.length_take_le size left
        omega
      refine (wp_bind ..).mpr (wp_mono (storeBytes_spec h₁ hfit) ?_)
      rintro _ σ' ⟨⟨hs', hlen', hsizes'⟩, hlog', hwr'⟩
      refine (wp_pure ..).mpr ⟨Or.inr ⟨Int.negSucc_lt_zero code, rfl⟩, ⟨?_, hlen', hsizes'⟩, hlog',
        hwr'⟩
      simpa [Formatted.out] using hs'.of_append

/-- `_vscnprintf` returns what it has appended. -/
theorem vscnprintf_spec (size : Nat) (h : Built s σ) (hpos : 1 ≤ size)
    (hsize : s.length + size ≤ bzMaxErrStr) (ho : o.Fits) :
    wp (vscnprintf s.length size o) (fun n σ' => n = (o.out.take (size - 1)).length ∧
      Built (s ++ o.out.take (size - 1)) σ' ∧ σ'.log = σ.log ∧ σ'.written = σ.written) σ := by
  refine (wp_bind ..).mpr (wp_mono (vsnprintf_spec h hpos hsize ho) ?_)
  rintro n σ' ⟨hn, hσ'⟩
  refine (wp_pure ..).mpr ⟨?_, hσ'⟩
  have hwrap : (size + (2 ^ 64 - 1)) % 2 ^ 64 = size - 1 := by
    unfold bzMaxErrStr at hsize
    omega
  rw [hwrap, intOfSize_of_le (by omega), intOfSize_of_le (by omega), List.length_take]
  rcases hn with rfl | ⟨hn, hout⟩
  · split
    · omega
    · split <;> omega
  · rw [if_pos (Int.le_of_lt hn), hout]
    simp

/-- The first call has the whole buffer. -/
theorem vscnprintf_start (h : Built [] σ) (ho : o.Fits) :
    wp (vscnprintf 0 bzMaxErrStr o) (fun n σ' => n = (o.out.take (bzMaxErrStr - 1)).length ∧
      Built (o.out.take (bzMaxErrStr - 1)) σ' ∧ σ'.log = σ.log ∧ σ'.written = σ.written) σ := by
  have hspec := vscnprintf_spec bzMaxErrStr h (by decide) (by decide) ho
  rwa [List.nil_append, List.length_nil, Int.natCast_zero] at hspec

/-- The newline goes behind the text, and both to `write`. -/
theorem writeRecord_spec (h : Built s σ) (hlt : s.length < bzMaxErrStr) :
    wp (writeRecord env fd s.length) (fun n σ' => n = env.result ∧ σ'.log = σ.log ∧
      Recorded fd (s ++ [10]) σ σ') σ := by
  refine (wp_bind ..).mpr (wp_mono (storeBytes_spec h (t := [10]) hlt) ?_)
  rintro _ σ₁ ⟨h₁, hlog₁, hwr₁⟩
  have hsize : sizeOfInt (s.length + 1) = (s ++ [10]).length := by
    unfold bzMaxErrStr at hlt
    unfold sizeOfInt
    rw [List.length_append, List.length_singleton]
    omega
  have hrun : (writeBuf env fd (s.length + 1)).run σ₁ = some (env.result, { σ₁ with
      errno := env.callErrno, written := σ₁.written ++ [(fd, s ++ [10])] }) := by
    show (σ₁.buf.read (sizeOfInt (s.length + 1))).map _ = _
    rw [hsize, h₁.starts.read]
    rfl
  refine (wp_of_run hrun).mpr ⟨rfl, hlog₁, ?_, ?_, ?_, h₁.starts, h₁.length, h₁.sizes⟩
  · rw [hwr₁]
  · simp
  · rw [List.length_append]
    exact hlt

theorem built_enterFrame : wp enterFrame (fun _ σ' => Built [] σ' ∧
    σ' = { σ with buf := σ'.buf, sizes := [] }) σ :=
  (wp_modify ..).mpr ⟨⟨.nil _, List.length_replicate, nofun⟩, rfl⟩

/-- A log that is not open is left alone. -/
theorem log_closed (env : LogEnv) (header message : Formatted)
    (h : ∀ l, σ.log = some l → l.fd < 0) :
    wp (log env header message)
      (fun _ σ' => σ' = { σ with buf := σ'.buf, sizes := σ'.sizes }) σ := by
  refine (wp_bind ..).mpr (wp_mono built_enterFrame ?_)
  rintro _ σ₁ ⟨-, h₁⟩
  refine (wp_bind ..).mpr ((wp_get ..).mpr ?_)
  cases hlog : σ₁.log with
  | none =>
      refine (wp_pure ..).mpr ?_
      rw [h₁]
  | some l =>
      rw [h₁] at hlog
      simp only [if_pos (h l hlog)]
      refine (wp_pure ..).mpr ?_
      rw [h₁]

/-- What two texts leave of the second one when they are cut off together. -/
theorem take_record (h m : Str) :
    h.take (bzMaxErrStr - 1) ++ m.take (bzMaxErrStr - (h.take (bzMaxErrStr - 1)).length - 1) =
      (h ++ m).take (bzMaxErrStr - 1) := by
  rw [List.take_append, List.length_take]
  congr 2
  omega

/-- `_log` with an open log. A `write` that fails is counted, and `errno` is what
it was when the clock had been read. -/
theorem log_spec {l : BzLog} {header message : Formatted} (hlog : σ.log = some l)
    (hfd : 0 ≤ l.fd) (hh : header.Fits) (hm : message.Fits) :
    wp (log env header message) (fun _ σ' =>
      σ'.log = some (if env.result < 0 then { l with nerr := l.nerr + 1 } else l) ∧
      σ'.errno = env.clockErrno ∧
      Recorded l.fd ((header.out ++ message.out).take (bzMaxErrStr - 1) ++ [10]) σ σ') σ := by
  refine (wp_bind ..).mpr (wp_mono built_enterFrame ?_)
  rintro _ σ₁ ⟨hb₁, h₁⟩
  refine (wp_bind ..).mpr ((wp_get ..).mpr ?_)
  have hlog₁ : σ₁.log = some l := by rw [h₁]; exact hlog
  have hwr₁ : σ₁.written = σ.written := by rw [h₁]
  simp only [hlog₁, if_neg (Int.not_lt.mpr hfd)]
  refine (wp_bind ..).mpr ((wp_modify ..).mpr ((wp_bind ..).mpr ((wp_get ..).mpr ?_)))
  dsimp only
  generalize hσ₂ : ({ σ₁ with errno := env.clockErrno } : LogState) = σ₂
  have hb₂ : Built [] σ₂ := hσ₂ ▸ ⟨hb₁.starts, hb₁.length, hb₁.sizes⟩
  -- the header, at the start of the buffer
  have hsize₂ : sizeOfInt ((bzMaxErrStr : Int) - 0) = bzMaxErrStr := sizeOfInt_sub (Nat.zero_le _)
  rw [hsize₂]
  refine (wp_bind ..).mpr (wp_mono (vscnprintf_start hb₂ hh) ?_)
  rintro _ σ₃ ⟨rfl, hb₃, hlog₃, hwr₃⟩
  -- the message, in what is left of it
  have hroom : (header.out.take (bzMaxErrStr - 1)).length ≤ bzMaxErrStr - 1 :=
    List.length_take_le ..
  rw [Int.zero_add, sizeOfInt_sub (by omega)]
  have hlt : 0 < bzMaxErrStr := by decide
  refine (wp_bind ..).mpr (wp_mono (vscnprintf_spec _ hb₃ (by omega) (by omega) hm) ?_)
  rintro _ σ₄ ⟨rfl, hb₄, hlog₄, hwr₄⟩
  rw [take_record] at hb₄
  rw [← Int.natCast_add, ← List.length_append, take_record]
  -- the newline, in the byte that is left
  have hlast := List.length_take_le (bzMaxErrStr - 1) (header.out ++ message.out)
  refine (wp_bind ..).mpr (wp_mono (writeRecord_spec hb₄ (by omega)) ?_)
  rintro _ σ₅ ⟨rfl, hlog₅, hwr₅, hpos, hle, hb₅⟩
  have hlog : σ₅.log = some l := by
    rw [hlog₅, hlog₄, hlog₃, ← hσ₂]
    exact hlog₁
  have hwr : σ₅.written = σ.written ++
      [(l.fd, (header.out ++ message.out).take (bzMaxErrStr - 1) ++ [10])] := by
    rw [hwr₅, hwr₄, hwr₃, ← hσ₂]
    exact congrArg (· ++ _) hwr₁
  split
  · refine (wp_bind ..).mpr ((wp_modify ..).mpr ((wp_modify ..).mpr ?_))
    exact ⟨rfl, rfl, hwr, hpos, hle, hb₅.starts, hb₅.length, hb₅.sizes⟩
  · refine (wp_modify ..).mpr ?_
    exact ⟨hlog, rfl, hwr, hpos, hle, hb₅.starts, hb₅.length, hb₅.sizes⟩

theorem logStderr_spec {message : Formatted} (hm : message.Fits) :
    wp (logStderr env message) (fun _ σ' =>
      Recorded stderrFileno (message.out.take (bzMaxErrStr - 1) ++ [10]) σ σ') σ := by
  refine (wp_bind ..).mpr (wp_mono built_enterFrame ?_)
  rintro _ σ₁ ⟨hb₁, h₁⟩
  refine (wp_bind ..).mpr (wp_mono (vscnprintf_start hb₁ hm) ?_)
  rintro _ σ₂ ⟨rfl, hb₂, -, hwr₂⟩
  have hlt : 0 < bzMaxErrStr := by decide
  have hlast := List.length_take_le (bzMaxErrStr - 1) message.out
  refine (wp_bind ..).mpr (wp_mono (writeRecord_spec hb₂ (by omega)) ?_)
  rintro _ σ₃ ⟨-, -, hwr₃, hpos, hle, hb₃⟩
  refine (wp_pure ..).mpr ⟨?_, hpos, hle, hb₃⟩
  rw [hwr₃, hwr₂, h₁]

end

/-- **Log records.** `_log` hands to `write` what fits into 1023 bytes of the
header and the message, and a newline, and stays within its buffer;
`_log_stderr` does so with the message alone. -/
theorem log_records {header message : Formatted} (hh : header.Fits) (hm : message.Fits)
    (env : LogEnv) (σ : LogState) :
    (∀ l, σ.log = some l → 0 ≤ l.fd → wp (log env header message) (fun _ σ' =>
      Recorded l.fd ((header.out ++ message.out).take 1023 ++ [10]) σ σ') σ) ∧
    wp (logStderr env message) (fun _ σ' =>
      Recorded stderrFileno (message.out.take 1023 ++ [10]) σ σ') σ := by
  refine ⟨fun l hlog hfd => wp_mono (log_spec hlog hfd hh hm) ?_, logStderr_spec hm⟩
  rintro _ σ' ⟨-, -, h⟩
  exact h

/-- A header that is longer than the buffer, and a message that fails. -/
theorem log_records_long :
    (∀ l, LogState.log ⟨[], [], 0, some ⟨5, 0⟩, []⟩ = some l → 0 ≤ l.fd →
      wp (log ⟨0, 0, 0⟩ (.text (List.replicate 1100 91)) (.failed 0 [7])) (fun _ σ' =>
        Recorded l.fd (((Formatted.text (List.replicate 1100 91)).out ++
          (Formatted.failed 0 [7]).out).take 1023 ++ [10]) ⟨[], [], 0, some ⟨5, 0⟩, []⟩ σ')
        ⟨[], [], 0, some ⟨5, 0⟩, []⟩) ∧
    wp (logStderr ⟨0, 0, 0⟩ (.failed 0 [7])) (fun _ σ' =>
      Recorded stderrFileno ((Formatted.failed 0 [7]).out.take 1023 ++ [10])
        ⟨[], [], 0, some ⟨5, 0⟩, []⟩ σ') ⟨[], [], 0, some ⟨5, 0⟩, []⟩ :=
  have hfits : (Formatted.text (List.replicate 1100 91)).Fits := by
    unfold Formatted.Fits Formatted.out
    rw [List.length_replicate]
    decide
  log_records hfits (by decide) ⟨0, 0, 0⟩ ⟨[], [], 0, some ⟨5, 0⟩, []⟩

end Bitzer
