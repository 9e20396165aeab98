import CPlayground.Basic.Text

set_option autoImplicit false

/-! # The logger

`common/logger.c`: `do_log_msg` formats a line in three calls into an array of `MSG_LEN`
characters and prints it. The count `written` adds up the untruncated lengths; it is compared
with the size of the array after the second call and not after the third, so the final
`msg[written] = '\0'` leaves the array when the location no longer fits (`log_line_iff`).
-/

namespace CPlayground.Logger

/-! ## Data -/

def MSG_LEN : Nat := 8192

def INT_MAX : Int := 2 ^ 31 - 1

/-- The levels `LOG_LEVEL_FATAL` to `LOG_LEVEL_DEBUG`. -/
inductive LogLevel
  | fatal
  | error
  | warn
  | info
  | debug
  deriving DecidableEq, Repr

def LogLevel.toInt : LogLevel → Int
  | fatal => 0
  | error => 1
  | warn => 2
  | info => 3
  | debug => 4

/-- `log_level_string`. -/
def logLevelString : LogLevel → List Byte
  | .fatal => literal "FATAL"
  | .error => literal "ERROR"
  | .warn => literal "WARN"
  | .info => literal "INFO"
  | .debug => literal "DEBUG"

/-- The text of the format `[%-5s] `. -/
def levelTag (level : LogLevel) : List Byte :=
  literal "[" ++ padRight 5 (logLevelString level) ++ literal "] "

/-- The text of the format `   (%s:%d:%s)`. -/
def locationText (file : CString) (line : Int32) (func : CString) : List Byte :=
  literal "   (" ++ file.chars ++ literal ":" ++ decimal line.toInt ++ literal ":" ++ func.chars
    ++ literal ")"

/-- The test `file && line && func`, with the text of the location when it holds. -/
def location (file : Option CString) (line : Int32) (func : Option CString) :
    Option (List Byte) :=
  match file, func with
  | some file, some func => if line ≠ 0 then some (locationText file line func) else none
  | _, _ => none

/-! ## Formatting -/

/-- A line that has been printed, and whether it went to `stderr`. -/
structure Emitted where
  toStderr : Bool
  line : List Byte
  deriving DecidableEq, Repr

/-- `logging_to_file` or `logging_to_stderr`: the format `%s\n`. `zc` tells whether a stream
is given. -/
def logging (zc : Bool) (msg : List Byte) : Emitted := ⟨!zc, printed msg ++ literal "\n"⟩

/-- The last statements of `do_log_msg`, from `msg[written] = '\0'` on. -/
def terminate (zc : Bool) (msg : List Byte) (written : Int) :
    Except OutOfBounds (Option Emitted) := do
  -- `written` is not compared with the size of `msg` again
  let msg ← store msg written [0]
  return some (logging zc msg)

/-- The statements of `do_log_msg` after the second call, for a line of which `written`
characters are there. -/
def appendLocation (outcome : Option Int) (zc : Bool) (loc : Option (List Byte))
    (msg : List Byte) (written : Int) : Except OutOfBounds (Option Emitted) :=
  match loc with
  | none => terminate zc msg written
  | some suffix => do
      -- the return value counts what did not fit, too
      let (r, msg) ← snprintf outcome msg written (toSizeT (MSG_LEN - written)) suffix
      let written := wrap32 (written + r)
      if written < 0 then return none else terminate zc msg written

/-- `do_log_msg`, for a message whose formatted text is `text`; `calls k` is the outcome of
the `k`-th formatted print. Nothing is printed when a call is seen to have failed. -/
def doLogMsg (calls : Nat → Option Int) (zc : Bool) (level : LogLevel) (file : Option CString)
    (line : Int32) (func : Option CString) (text : CString) :
    Except OutOfBounds (Option Emitted) := do
  let msg := List.replicate MSG_LEN (0 : Byte)
  let (written, msg) ← snprintf (calls 0) msg 0 MSG_LEN (levelTag level)
  if written < 0 then return none
  else
    -- `vsnprintf` of the message; here `written` is checked
    let (r, msg) ← snprintf (calls 1) msg written (toSizeT (MSG_LEN - written)) text.chars
    let written := wrap32 (written + r)
    if written < 0 then return none
    else if MSG_LEN - 1 ≤ written then return some (logging zc msg)
    else appendLocation (calls 2) zc (location file line func) msg written

/-- `log_msg`. -/
def logMsg (defaultLogLevel : Int) (calls : Nat → Option Int) (zc : Bool) (level : LogLevel)
    (file : Option CString) (line : Int32) (func : Option CString) (text : CString) :
    Except OutOfBounds (Option Emitted) :=
  if defaultLogLevel < level.toInt then .ok none
  else doLogMsg calls zc level file line func text

/-! ## What a line should be -/

/-- The whole line: tag, message and, when it is given, the location. -/
def fullLine (level : LogLevel) (file : Option CString) (line : Int32) (func : Option CString)
    (text : CString) : List Byte :=
  levelTag level ++ text.chars ++ (location file line func).getD []

/-- No store leaves the array, and the line that comes out is the whole line cut to
`MSG_LEN - 1` characters. -/
def LogsLine (calls : Nat → Option Int) (zc : Bool) (level : LogLevel) (file : Option CString)
    (line : Int32) (func : Option CString) (text : CString) : Prop :=
  doLogMsg calls zc level file line func text
    = .ok (some ⟨!zc, (fullLine level file line func text).take (MSG_LEN - 1) ++ literal "\n"⟩)

theorem levelTag_length (level : LogLevel) : (levelTag level).length = 8 := by
  cases level <;> decide

theorem levelTag_noNul (level : LogLevel) : ∀ c ∈ levelTag level, c ≠ 0 := by
  apply noNul_of_all
  cases level <;> decide

theorem locationText_noNul (file : CString) (line : Int32) (func : CString) :
    ∀ c ∈ locationText file line func, c ≠ 0 := by
  have hopen : ∀ c ∈ literal "   (", c ≠ 0 := noNul_of_all (by decide)
  have hcolon : ∀ c ∈ literal ":", c ≠ 0 := noNul_of_all (by decide)
  have hclose : ∀ c ∈ literal ")", c ≠ 0 := noNul_of_all (by decide)
  have hline := decimal_noNul line.toInt
  intro c hc
  unfold locationText at hc
  simp only [List.mem_append] at hc
  rcases hc with (((((h | h) | h) | h) | h) | h) | h
  · exact hopen c h
  · exact file.noNul c h
  · exact hcolon c h
  · exact hline c h
  · exact hcolon c h
  · exact func.noNul c h
  · exact hclose c h

theorem location_noNul (file : Option CString) (line : Int32) (func : Option CString) :
    ∀ c ∈ (location file line func).getD [], c ≠ 0 := by
  unfold location
  split
  · split_ifs
    · exact locationText_noNul _ _ _
    · intro c hc
      exact absurd hc List.not_mem_nil
  · intro c hc
    exact absurd hc List.not_mem_nil

/-! ## The three calls -/

section Calls

variable (zc : Bool) {msg s : List Byte}

/-- A formatted print behind a string of the array. -/
theorem snprintf_behind (text : List Byte) (hlen : msg.length = MSG_LEN) (h : Carries msg s) :
    ∃ msg', snprintf none msg s.length (toSizeT (MSG_LEN - (s.length : Int))) text
        = .ok (text.length, msg') ∧
      msg'.length = MSG_LEN ∧ Carries msg' ((s ++ text).take (MSG_LEN - 1)) := by
  -- the string and its NUL are in the array, so the room that is left is positive
  have hlt := h.length_lt
  rw [hlen] at hlt
  have hsize : toSizeT (MSG_LEN - (s.length : Int)) = msg.length - s.length := by
    have hM : MSG_LEN = 8192 := rfl
    rw [toSizeT_eq (by omega) (by omega), hlen]
    omega
  obtain ⟨msg', hprint, hlen', hcarries⟩ := snprintf_carries text h
  rw [hlen] at hlen' hcarries
  exact ⟨msg', by rw [hsize, hprint], hlen', hcarries⟩

/-- The array prints as the string it carries. -/
theorem logging_carries (h : Carries msg s) (hs : ∀ c ∈ s, c ≠ 0) :
    logging zc msg = ⟨!zc, s ++ literal "\n"⟩ := by
  unfold logging
  rw [printed_of_carries h hs]

/-- The final NUL, when it falls into the array. -/
theorem terminate_inside (h : Carries msg s) (hs : ∀ c ∈ s, c ≠ 0) :
    terminate zc msg s.length = .ok (some ⟨!zc, s ++ literal "\n"⟩) := by
  have hroom : s.length + [(0 : Byte)].length ≤ msg.length := h.length_lt
  obtain ⟨msg', hstore, -, hcarries⟩ := store_behind ((List.prefix_append s [0]).trans h) hroom
  unfold terminate
  rw [hstore]
  show Except.ok (some (logging zc msg')) = _
  rw [logging_carries zc hcarries hs]

/-- The final NUL, when it does not. -/
theorem terminate_outside (hlen : msg.length = MSG_LEN) {written : Int}
    (hout : (MSG_LEN : Int) ≤ written) : terminate zc msg written = .error ⟨written⟩ := by
  unfold terminate store
  rw [if_neg (by rw [hlen, List.length_singleton]; omega)]
  simp [bind, Except.bind]

/-- **The location fits**: the line is completed. -/
theorem appendLocation_fits (hlen : msg.length = MSG_LEN) (h : Carries msg s)
    (hs : ∀ c ∈ s, c ≠ 0) {loc : Option (List Byte)} (hloc : ∀ c ∈ loc.getD [], c ≠ 0)
    (hfit : s.length + (loc.getD []).length ≤ MSG_LEN - 1) :
    appendLocation none zc loc msg s.length
      = .ok (some ⟨!zc, s ++ loc.getD [] ++ literal "\n"⟩) := by
  have hM : MSG_LEN = 8192 := rfl
  cases loc with
  | none =>
      show terminate zc msg s.length = .ok (some ⟨!zc, s ++ [] ++ literal "\n"⟩)
      rw [List.append_nil]
      exact terminate_inside zc h hs
  | some suffix =>
      have hfit' : s.length + suffix.length ≤ MSG_LEN - 1 := hfit
      obtain ⟨msg', hprint, -, hcarries⟩ := snprintf_behind suffix hlen h
      -- nothing was cut off
      rw [List.take_of_length_le (by rw [List.length_append]; exact hfit')] at hcarries
      have hwritten : wrap32 ((s.length : Int) + suffix.length) = (s ++ suffix).length := by
        calc wrap32 ((s.length : Int) + suffix.length) = s.length + suffix.length :=
              wrap32_eq (by omega) (by omega)
          _ = (s ++ suffix).length := by rw [List.length_append, Int.natCast_add]
      have hnoNul : ∀ c ∈ s ++ suffix, c ≠ 0 := by
        intro c hc
        rcases List.mem_append.1 hc with hc | hc
        · exact hs c hc
        · exact hloc c hc
      unfold appendLocation
      simp only [hprint, bind, Except.bind, hwritten]
      rw [if_neg (by omega)]
      exact terminate_inside zc hcarries hnoNul

/-- **The location does not fit**: `written` is past the last index, and so is the store. -/
theorem appendLocation_outside {suffix : List Byte} (hlen : msg.length = MSG_LEN)
    (h : Carries msg s) (hover : MSG_LEN ≤ s.length + suffix.length)
    (hint : (s.length : Int) + suffix.length ≤ INT_MAX) :
    appendLocation none zc (some suffix) msg s.length
      = .error ⟨(s.length : Int) + suffix.length⟩ := by
  have hI : INT_MAX = 2 ^ 31 - 1 := rfl
  obtain ⟨msg', hprint, hlen', -⟩ := snprintf_behind suffix hlen h
  unfold appendLocation
  simp only [hprint, bind, Except.bind]
  rw [wrap32_eq (by omega) (by omega), if_neg (by omega), terminate_outside zc hlen' (by omega)]

/-- The location does not fit and the sum of the lengths is no `int`: the line is lost. -/
theorem appendLocation_lost {suffix : List Byte} (hlen : msg.length = MSG_LEN)
    (h : Carries msg s) (hsuffix : (suffix.length : Int) ≤ INT_MAX)
    (hint : INT_MAX < (s.length : Int) + suffix.length) :
    appendLocation none zc (some suffix) msg s.length = .ok none := by
  have hM : MSG_LEN = 8192 := rfl
  have hI : INT_MAX = 2 ^ 31 - 1 := rfl
  have hlt := h.length_lt
  obtain ⟨msg', hprint, -, -⟩ := snprintf_behind suffix hlen h
  have hneg : wrap32 ((s.length : Int) + suffix.length) < 0 := by
    unfold wrap32
    rw [Int.bmod_def]
    split_ifs <;> omega
  unfold appendLocation
  simp only [hprint, bind, Except.bind]
  rw [if_pos hneg]
  rfl

theorem appendLocation_over (hlen : msg.length = MSG_LEN) (h : Carries msg s)
    {loc : Option (List Byte)} (hsuffix : ((loc.getD []).length : Int) ≤ INT_MAX)
    (hover : MSG_LEN ≤ s.length + (loc.getD []).length) (e : Emitted) :
    appendLocation none zc loc msg s.length ≠ .ok (some e) := by
  cases loc with
  | none =>
      have hlt := h.length_lt
      have hover' : MSG_LEN ≤ s.length + 0 := hover
      omega
  | some suffix =>
      have hsuffix' : (suffix.length : Int) ≤ INT_MAX := hsuffix
      have hover' : MSG_LEN ≤ s.length + suffix.length := hover
      intro hok
      by_cases hint : (s.length : Int) + suffix.length ≤ INT_MAX
      · rw [appendLocation_outside zc hlen h hover' hint] at hok
        cases hok
      · rw [appendLocation_lost zc hlen h hsuffix' (by omega)] at hok
        cases hok

end Calls

/-! ## The line -/

section Line

variable (calls : Nat → Option Int) (zc : Bool) (level : LogLevel) (file : Option CString)
  (line : Int32) (func : Option CString) (text : CString)

theorem carries_zeroed : Carries (List.replicate MSG_LEN 0) [] := by
  show [] ++ [0] <+: 0 :: List.replicate 8191 0
  exact ⟨_, rfl⟩

/-- The first two calls leave tag and message in the array, cut to its end. -/
theorem doLogMsg_message (hcalls : ∀ k, calls k = none)
    (hL : 8 + (text.chars.length : Int) ≤ INT_MAX) :
    ∃ msg, msg.length = MSG_LEN ∧
      Carries msg ((levelTag level ++ text.chars).take (MSG_LEN - 1)) ∧
      doLogMsg calls zc level file line func text
        = if (MSG_LEN : Int) - 1 ≤ 8 + text.chars.length then .ok (some (logging zc msg))
          else appendLocation none zc (location file line func) msg
            (8 + text.chars.length) := by
  have hM : MSG_LEN = 8192 := rfl
  have hI : INT_MAX = 2 ^ 31 - 1 := rfl
  have htag := levelTag_length level
  -- the tag always fits
  obtain ⟨msg₁, hprint₁, hlen₁, hcarries₁⟩ := snprintf_carries (levelTag level) carries_zeroed
  rw [List.length_replicate] at hprint₁ hlen₁ hcarries₁
  rw [List.nil_append, List.take_of_length_le (by omega)] at hcarries₁
  -- the message may be cut, `written` counts all of it
  obtain ⟨msg₂, hprint₂, hlen₂, hcarries₂⟩ := snprintf_behind text.chars hlen₁ hcarries₁
  refine ⟨msg₂, hlen₂, hcarries₂, ?_⟩
  have hwritten : wrap32 (((levelTag level).length : Int) + text.chars.length)
      = 8 + text.chars.length := by
    rw [htag, wrap32_eq (by omega) (by omega)]
    rfl
  have hprint₁' : snprintf none (List.replicate MSG_LEN 0) 0 MSG_LEN (levelTag level)
      = .ok (((levelTag level).length : Int), msg₁) := hprint₁
  unfold doLogMsg
  simp only [hcalls, hprint₁', hprint₂, bind, Except.bind, hwritten]
  rw [if_neg (by omega), if_neg (by omega)]
  rfl

/-- **The line comes out right** exactly when the message fills the array by itself, or tag,
message and location fit into it together. -/
theorem log_line_iff (hcalls : ∀ k, calls k = none)
    (hL : 8 + (text.chars.length : Int) ≤ INT_MAX)
    (hS : (((location file line func).getD []).length : Int) ≤ INT_MAX) :
    LogsLine calls zc level file line func text ↔
      MSG_LEN - 1 ≤ 8 + text.chars.length ∨
        8 + text.chars.length + ((location file line func).getD []).length ≤ MSG_LEN - 1 := by
  have hM : MSG_LEN = 8192 := rfl
  have htag := levelTag_length level
  have hlen : (levelTag level ++ text.chars).length = 8 + text.chars.length := by
    rw [List.length_append, htag]
  have hnoNul : ∀ c ∈ levelTag level ++ text.chars, c ≠ 0 := by
    intro c hc
    rcases List.mem_append.1 hc with hc | hc
    · exact levelTag_noNul level c hc
    · exact text.noNul c hc
  have hloc : ∀ c ∈ (location file line func).getD [], c ≠ 0 := location_noNul file line func
  obtain ⟨msg, hmsg, hcarries, hrun⟩ :=
    doLogMsg_message calls zc level file line func text hcalls hL
  unfold LogsLine fullLine
  rw [hrun]
  by_cases hfull : MSG_LEN - 1 ≤ 8 + text.chars.length
  · -- tag and message fill the array: the location is left out, and cut off anyway
    have hcut : ((levelTag level ++ text.chars) ++ (location file line func).getD []).take
        (MSG_LEN - 1) = (levelTag level ++ text.chars).take (MSG_LEN - 1) := by
      rw [List.take_append_of_le_length (by omega)]
    have hprinted := logging_carries zc hcarries fun c hc =>
      hnoNul c (List.mem_of_mem_take hc)
    rw [if_pos (by omega), hcut, hprinted]
    exact iff_of_true rfl (Or.inl hfull)
  · rw [List.take_of_length_le (by omega)] at hcarries
    -- there is room behind the message: what was printed is not cut
    have hwritten : (8 : Int) + text.chars.length = (levelTag level ++ text.chars).length := by
      rw [hlen, Int.natCast_add]
      rfl
    rw [if_neg (by omega), hwritten]
    by_cases hfit : 8 + text.chars.length + ((location file line func).getD []).length
        ≤ MSG_LEN - 1
    · have hline := appendLocation_fits zc hmsg hcarries hnoNul hloc (by omega)
      rw [hline, List.take_of_length_le (by rw [List.length_append]; omega)]
      exact iff_of_true rfl (Or.inr hfit)
    -- the location does not fit, and no line comes out
    · have hlost := appendLocation_over zc hmsg hcarries hS (by omega)
      refine iff_of_false (hlost _) ?_
      rintro (h | h)
      · exact hfull h
      · exact hfit h

end Line

/-- The file `a`. -/
def shortFile : CString := ⟨[97], noNul_of_all rfl⟩

/-- The function `f`. -/
def shortFunc : CString := ⟨[102], noNul_of_all rfl⟩

/-- A short message with a location: the line fits. -/
theorem log_line_iff_short :
    LogsLine (fun _ => none) true .info (some shortFile) 7 (some shortFunc)
      ⟨[104, 105], noNul_of_all rfl⟩ :=
  (log_line_iff _ _ _ _ _ _ _ (fun _ => rfl) (by decide) (by decide)).2 (by decide)

/-- A message of 8180 characters. -/
def longText : CString := ⟨List.replicate 8180 97, fun c hc => by
  rw [List.eq_of_mem_replicate hc]
  decide⟩

/-- With its tag a message of 8180 characters leaves room for three more and the NUL; the
location `   (a:7:f)` asks for ten, and the final NUL is stored at `msg[8198]`. -/
theorem long_line_overruns :
    logMsg LogLevel.debug.toInt (fun _ => none) true .info (some shortFile) 7
        (some shortFunc) longText = .error ⟨8198⟩ ∧
      ¬ LogsLine (fun _ => none) true .info (some shortFile) 7
        (some shortFunc) longText := by
  have hlong : longText.chars.length = 8180 := List.length_replicate
  have htag := levelTag_length .info
  have hlen : (levelTag .info ++ longText.chars).length = 8188 := by
    rw [List.length_append, htag, hlong]
  have hM : MSG_LEN = 8192 := rfl
  have hI : INT_MAX = 2 ^ 31 - 1 := rfl
  have hsuffix : (locationText shortFile 7 shortFunc).length = 10 := by decide
  obtain ⟨msg, hmsg, hcarries, hrun⟩ := doLogMsg_message (fun _ => none) true .info
    (some shortFile) 7 (some shortFunc) longText (fun _ => rfl) (by omega)
  rw [List.take_of_length_le (by omega)] at hcarries
  have herror : doLogMsg (fun _ => none) true .info (some shortFile) 7
      (some shortFunc) longText = .error ⟨8198⟩ := by
    have hover := appendLocation_outside true hmsg hcarries
      (show MSG_LEN ≤ (levelTag .info ++ longText.chars).length
        + (locationText shortFile 7 shortFunc).length by omega) (by omega)
    rw [hlen, hsuffix] at hover
    rw [hrun, if_neg (by omega), hlong]
    exact hover
  refine ⟨?_, ?_⟩
  · unfold logMsg
    rw [if_neg (by decide)]
    exact herror
  · unfold LogsLine
    rw [herror]
    intro hok
    cases hok

end CPlayground.Logger
