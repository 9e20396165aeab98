import CPlayground.Basic.CInt
import CPlayground.Basic.Run

set_option autoImplicit false

/-! # Copying a file

`POSIX_File/posix_cp_example.c`: `main` opens the source, creates the destination, and copies
blocks of 128 bytes until a `read` does not fill one. Each system call ends in one of the ways
that POSIX permits for a regular file. The program looks at what the first `open` and `read`
return, and at nothing else; which runs copy the file is `copies_iff`.
-/

namespace CPlayground.PosixCp

/-! ## Data -/

def EXIT_SUCCESS : Nat := 0

def EXIT_FAILURE : Nat := 1

def BUF_LEN : Nat := 128

/-- The size of the largest transfer that POSIX defines. -/
def SSIZE_MAX : Nat := 2 ^ 63 - 1

/-- What the program is called with: `argc`, the bytes of the source, and whether the
destination exists. -/
structure Call where
  argc : Int
  src : List Byte
  present : Bool

inductive Pc
  | start
  | openSrc
  | openDes
  | read
  | write
  | loopTest
  | close
  | exited (status : Nat)
  deriving DecidableEq, Repr

/-- The locals of `main`, the offset `pos` in the source, and the file that this run has
created, with its bytes: `fd_des` is -1 when there is none. -/
structure Copy where
  pc : Pc
  buf : List Byte
  num : Int
  pos : Nat
  created : Option (List Byte)
  deriving DecidableEq, Repr

/-- How a system call ends. `read` and `write` transfer some bytes or fail. -/
inductive Outcome
  | go
  | opened (ok : Bool)
  | transferred (count : Option Nat)
  deriving DecidableEq, Repr

/-! ## The program -/

/-- `read(fd_src, buf, 128)`: some bytes unless the end is reached, or an error. -/
def readBlock (src : List Byte) (s : Copy) : Option Nat → Option Copy
  | none => some { s with pc := .write, num := -1 }
  | some n =>
      if n ≤ BUF_LEN ∧ s.pos + n ≤ src.length ∧ (n = 0 → s.pos = src.length) then
        some { s with pc := .write, num := n, pos := s.pos + n
                      buf := (src.drop s.pos).take n ++ s.buf.drop n }
      else none

/-- `write(fd_des, buf, num)`, whose last argument is a `size_t`. It fails when there is no
file, and for more bytes than an `ssize_t` can count. -/
def writeBlock (s : Copy) : Option Nat → Option Copy
  | none => some { s with pc := .loopTest }
  | some n =>
      match s.created with
      | none => none
      | some bytes =>
          if toSizeT s.num ≤ SSIZE_MAX ∧ n ≤ toSizeT s.num ∧ (n = 0 → toSizeT s.num = 0) then
            some { s with pc := .loopTest, created := some (bytes ++ s.buf.take n) }
          else none

/-- `main`. -/
def stepCopy (call : Call) (s : Copy) (a : Outcome) : Option Copy :=
  match s.pc, a with
  | .start, .go => some { s with pc := if call.argc ≠ 3 then .exited EXIT_FAILURE else .openSrc }
  | .openSrc, .opened ok => some { s with pc := if ok then .openDes else .exited EXIT_FAILURE }
  -- `O_CREAT | O_EXCL`; the branch of the failure is empty
  | .openDes, .opened true =>
      if call.present then none else some { s with pc := .read, created := some [] }
  | .openDes, .opened false => some { s with pc := .read }
  | .read, .transferred count => readBlock call.src s count
  | .write, .transferred count => writeBlock s count
  | .loopTest, .go => some { s with pc := if s.num = BUF_LEN then .read else .close }
  | .close, .go => some { s with pc := .exited EXIT_SUCCESS }
  | _, _ => none

/-- What a step can do. -/
inductive CopyStep (call : Call) (s : Copy) : Outcome → Copy → Prop
  | usage (hpc : s.pc = .start) :
      CopyStep call s .go
        { s with pc := if call.argc ≠ 3 then .exited EXIT_FAILURE else .openSrc }
  | openSrc (hpc : s.pc = .openSrc) (ok : Bool) :
      CopyStep call s (.opened ok) { s with pc := if ok then .openDes else .exited EXIT_FAILURE }
  | created (hpc : s.pc = .openDes) :
      CopyStep call s (.opened true) { s with pc := .read, created := some [] }
  | notCreated (hpc : s.pc = .openDes) : CopyStep call s (.opened false) { s with pc := .read }
  | read (hpc : s.pc = .read) {n : Nat} (hn : n ≤ BUF_LEN) (hin : s.pos + n ≤ call.src.length) :
      CopyStep call s (.transferred (some n)) { s with
        pc := .write, num := n, pos := s.pos + n
        buf := (call.src.drop s.pos).take n ++ s.buf.drop n }
  | readFails (hpc : s.pc = .read) :
      CopyStep call s (.transferred none) { s with pc := .write, num := -1 }
  | write (hpc : s.pc = .write) {n : Nat} {bytes : List Byte} (hb : s.created = some bytes)
      (hsize : toSizeT s.num ≤ SSIZE_MAX) (hn : n ≤ toSizeT s.num) :
      CopyStep call s (.transferred (some n))
        { s with pc := .loopTest, created := some (bytes ++ s.buf.take n) }
  | writeFails (hpc : s.pc = .write) :
      CopyStep call s (.transferred none) { s with pc := .loopTest }
  | again (hpc : s.pc = .loopTest) (hnum : s.num = BUF_LEN) :
      CopyStep call s .go { s with pc := .read }
  | finish (hpc : s.pc = .loopTest) (hnum : s.num ≠ BUF_LEN) :
      CopyStep call s .go { s with pc := .close }
  | close (hpc : s.pc = .close) : CopyStep call s .go { s with pc := .exited EXIT_SUCCESS }

/-- **Inversion of a step.** -/
theorem stepCopy_cases {call : Call} {s s' : Copy} {a : Outcome}
    (h : stepCopy call s a = some s') : CopyStep call s a s' := by
  unfold stepCopy at h
  split at h
  · rename_i hpc
    cases h
    exact .usage hpc
  · rename_i ok hpc
    cases h
    exact .openSrc hpc ok
  · rename_i hpc
    split_ifs at h with hpresent
    cases h
    exact .created hpc
  · rename_i hpc
    cases h
    exact .notCreated hpc
  · rename_i count hpc
    cases count with
    | none =>
        cases h
        exact .readFails hpc
    | some n =>
        obtain ⟨⟨hn, hin, -⟩, he⟩ := Option.ite_none_right_eq_some.1 h
        cases he
        exact .read hpc hn hin
  · rename_i count hpc
    cases count with
    | none =>
        cases h
        exact .writeFails hpc
    | some n =>
        simp only [writeBlock] at h
        split at h
        · cases h
        · rename_i bytes hb
          obtain ⟨⟨hsize, hn, -⟩, he⟩ := Option.ite_none_right_eq_some.1 h
          cases he
          exact .write hpc hb hsize hn
  · rename_i hpc
    cases h
    by_cases hnum : s.num = BUF_LEN
    · rw [if_pos hnum]
      exact .again hpc hnum
    · rw [if_neg hnum]
      exact .finish hpc hnum
  · rename_i hpc
    cases h
    exact .close hpc
  · cases h

/-- `buf` and `num` hold whatever was on the stack. -/
def initCopy (buf : List Byte) (num : Int) : Copy where
  pc := .start
  buf := buf
  num := num
  pos := 0
  created := none

/-! ## What each call should do -/

/-- The bytes that a `write` has transferred. -/
def Outcome.count : Outcome → Nat
  | .transferred (some n) => n
  | _ => 0

/-- The destination is created, each `write` takes all the bytes that were read, and a `read`
that does not fill the block leaves nothing unread. -/
def Pc.CopiesAll (call : Call) (s : Copy) (a : Outcome) : Pc → Prop
  | .openDes => a = .opened true
  | .read => a.count = BUF_LEN ∨ s.pos + a.count = call.src.length
  | .write => a.count = s.num.toNat
  | _ => True

instance (call : Call) (s : Copy) (a : Outcome) : (pc : Pc) → Decidable (pc.CopiesAll call s a)
  | .openDes => inferInstanceAs (Decidable (a = .opened true))
  | .read => inferInstanceAs (Decidable (_ ∨ _))
  | .write => inferInstanceAs (Decidable (a.count = s.num.toNat))
  | .start | .openSrc | .loopTest | .close | .exited _ => .isTrue trivial

abbrev CopiesAll (call : Call) (s : Copy) (a : Outcome) : Prop := s.pc.CopiesAll call s a

/-! ## The copy so far -/

/-- The bytes of the block that has been read and not written. -/
def Copy.pending (s : Copy) : Nat := if s.pc = .write then s.num.toNat else 0

/-- The program has opened the destination, or tried to. -/
@[simp] def Pc.copying : Pc → Bool
  | .read | .write | .loopTest | .close => true
  | .exited status => decide (status = EXIT_SUCCESS)
  | _ => false

/-- What is in the file is the beginning of the source, if it is as long as it should be. -/
structure Inv (call : Call) (s : Copy) : Prop where
  pos_le : s.pos ≤ call.src.length
  none_before : s.pc.copying = false → s.created = none ∧ s.pos = 0
  length_le : ∀ bytes, s.created = some bytes → bytes.length + s.pending ≤ s.pos
  beginning : ∀ bytes, s.created = some bytes → bytes.length + s.pending = s.pos →
    bytes = call.src.take (s.pos - s.pending)
  block : s.pc = .write → s.num = -1 ∨ 0 ≤ s.num ∧ s.num ≤ BUF_LEN ∧ s.num.toNat ≤ s.pos ∧
    s.buf.take s.num.toNat = (call.src.drop (s.pos - s.num.toNat)).take s.num.toNat

/-- The file holds all the bytes that were read, but for those still to be written. -/
def Copy.UpToDate (s : Copy) : Prop :=
  ∃ bytes, s.created = some bytes ∧ bytes.length + s.pending = s.pos

/-- The destination can no longer become a copy. -/
def Lost (call : Call) (s : Copy) : Prop :=
  match s.pc with
  | .read => ¬ s.UpToDate
  | .write | .loopTest => ¬ s.UpToDate ∨ s.num ≠ BUF_LEN ∧ s.pos ≠ call.src.length
  | .close => ¬ (s.UpToDate ∧ s.pos = call.src.length)
  | .exited status => status = EXIT_SUCCESS ∧ ¬ (s.UpToDate ∧ s.pos = call.src.length)
  | _ => False

section Steps

variable {call : Call} {s s' : Copy} {a : Outcome}

theorem pending_of_ne (h : s.pc ≠ .write) : s.pending = 0 := if_neg h

theorem pending_of_write (h : s.pc = .write) : s.pending = s.num.toNat := if_pos h

/-- Between two blocks nothing is pending. -/
theorem inv_between (hpc : s.pc ≠ .write) (hpos : s.pos ≤ call.src.length)
    (hbefore : s.pc.copying = false → s.created = none ∧ s.pos = 0)
    (hbytes : ∀ bytes, s.created = some bytes →
      bytes.length ≤ s.pos ∧ (bytes.length = s.pos → bytes = call.src.take s.pos)) :
    Inv call s where
  pos_le := hpos
  none_before := hbefore
  length_le bytes hb := by
    rw [pending_of_ne hpc]
    exact (hbytes bytes hb).1
  beginning bytes hb hlen := by
    rw [pending_of_ne hpc] at hlen ⊢
    exact (hbytes bytes hb).2 hlen
  block hw := absurd hw hpc

/-- The same from a state between two blocks. -/
theorem Inv.bytes_between (h : Inv call s) (hpc : s.pc ≠ .write) (bytes : List Byte)
    (hb : s.created = some bytes) :
    bytes.length ≤ s.pos ∧ (bytes.length = s.pos → bytes = call.src.take s.pos) := by
  have hle := h.length_le bytes hb
  have hbeg := h.beginning bytes hb
  rw [pending_of_ne hpc] at hle hbeg
  exact ⟨hle, hbeg⟩

/-- A `write` that transfers bytes has been given a block. -/
theorem Inv.block_size (h : Inv call s) (hpc : s.pc = .write) (hsize : toSizeT s.num ≤ SSIZE_MAX) :
    0 ≤ s.num ∧ s.num ≤ BUF_LEN ∧ toSizeT s.num = s.num.toNat := by
  rcases h.block hpc with hneg | ⟨h0, hle, -⟩
  · -- the conversion of -1 is more than `SSIZE_MAX`
    rw [hneg] at hsize
    exact absurd hsize (by decide)
  · have hlt : s.num < 2 ^ 64 := by
      unfold BUF_LEN at hle
      omega
    exact ⟨h0, hle, toSizeT_eq h0 hlt⟩

/-- The block that is pending is in the buffer. -/
theorem Inv.block_length (h : Inv call s) (hpc : s.pc = .write) :
    s.num.toNat ≤ s.buf.length := by
  rcases h.block hpc with hneg | ⟨-, -, hmpos, hblock⟩
  · rw [hneg]
    exact Nat.zero_le _
  · have hlen := congrArg List.length hblock
    have hpos := h.pos_le
    simp only [List.length_take, List.length_drop] at hlen
    omega

/-- A `read` puts the next bytes of the source into the buffer. -/
theorem Inv.after_read (h : Inv call s) (hpc : s.pc = .read) {n : Nat} (hn : n ≤ BUF_LEN)
    (hin : s.pos + n ≤ call.src.length) : Inv call { s with
      pc := .write, num := n, pos := s.pos + n
      buf := (call.src.drop s.pos).take n ++ s.buf.drop n } := by
  have hbytes := h.bytes_between (by simp [hpc])
  refine ⟨hin, by simp, fun bytes hb => ?_, fun bytes hb hlen => ?_, fun _ => .inr ?_⟩
  · have hle := (hbytes bytes hb).1
    simp only [Copy.pending, if_true, Int.toNat_natCast]
    omega
  · simp only [Copy.pending, if_true, Int.toNat_natCast, Nat.add_sub_cancel] at hlen ⊢
    exact (hbytes bytes hb).2 (by omega)
  · have hlen : ((call.src.drop s.pos).take n).length = n := by
      rw [List.length_take, List.length_drop]
      omega
    simp only [Int.toNat_natCast, Nat.add_sub_cancel]
    refine ⟨Int.natCast_nonneg n, by exact_mod_cast hn, Nat.le_add_left n s.pos, ?_⟩
    rw [List.take_append_of_le_length hlen.ge, List.take_take, Nat.min_self]

/-- A `write` that takes the whole block leaves the beginning of the source in the file. -/
theorem Inv.after_write (h : Inv call s) (hpc : s.pc = .write) {n : Nat} {bytes : List Byte}
    (hb : s.created = some bytes) (hsize : toSizeT s.num ≤ SSIZE_MAX) (hn : n ≤ toSizeT s.num) :
    Inv call { s with pc := .loopTest, created := some (bytes ++ s.buf.take n) } := by
  obtain ⟨-, -, hnum⟩ := h.block_size hpc hsize
  rw [hnum] at hn
  have hle := h.length_le bytes hb
  have hbeg := h.beginning bytes hb
  rw [pending_of_write hpc] at hle hbeg
  refine inv_between (by simp) h.pos_le (by simp) fun bytes' hb' => ?_
  cases hb'
  have htaken : (s.buf.take n).length ≤ n := List.length_take_le n s.buf
  rw [List.length_append]
  change bytes.length + (s.buf.take n).length ≤ s.pos ∧
    (bytes.length + (s.buf.take n).length = s.pos → _ = call.src.take s.pos)
  refine ⟨by omega, fun hlen => ?_⟩
  -- the whole block has been written
  obtain rfl : n = s.num.toNat := by omega
  rcases h.block hpc with hneg | ⟨-, -, hmpos, hblock⟩
  · rw [hneg] at hsize
    exact absurd hsize (by decide)
  · rw [hblock, hbeg (by omega), ← List.take_add, Nat.sub_add_cancel hmpos]

/-- **Every step keeps the invariant.** -/
theorem Inv.step (h : Inv call s) (hs : stepCopy call s a = some s') : Inv call s' := by
  have hpos := h.pos_le
  cases stepCopy_cases hs with
  | usage hpc | openSrc hpc _ =>
      obtain ⟨hnone, hzero⟩ := h.none_before (by simp [hpc])
      refine inv_between ?_ hpos (fun _ => ⟨hnone, hzero⟩) fun bytes hb => ?_
      · dsimp only
        split_ifs <;> simp
      · rw [hnone] at hb
        cases hb
  | created hpc =>
      refine inv_between (by simp) hpos (by simp) fun bytes hb => ?_
      cases hb
      refine ⟨Nat.zero_le _, fun hzero => ?_⟩
      rw [← hzero]
      rfl
  | notCreated hpc =>
      obtain ⟨hnone, -⟩ := h.none_before (by simp [hpc])
      refine inv_between (by simp) hpos (by simp) fun bytes hb => ?_
      rw [hnone] at hb
      cases hb
  | read hpc hn hin => exact h.after_read hpc hn hin
  | readFails hpc =>
      have hbytes := h.bytes_between (by simp [hpc])
      refine ⟨hpos, by simp, fun bytes hb => ?_, fun bytes hb hlen => ?_, fun _ => .inl rfl⟩
      · exact (hbytes bytes hb).1
      · exact (hbytes bytes hb).2 hlen
  | write hpc hb hsize hn => exact h.after_write hpc hb hsize hn
  | writeFails hpc =>
      refine inv_between (by simp) hpos (by simp) fun bytes hb => ?_
      have hle := h.length_le bytes hb
      have hbeg := h.beginning bytes hb
      rw [pending_of_write hpc] at hle hbeg
      change bytes.length ≤ s.pos ∧ (bytes.length = s.pos → bytes = call.src.take s.pos)
      refine ⟨by omega, fun hlen => ?_⟩
      have hzero : s.num.toNat = 0 := by omega
      rw [hzero] at hbeg
      exact hbeg hlen
  | again hpc hnum | finish hpc hnum | close hpc =>
      have hne : s.pc ≠ .write := by simp [hpc]
      exact inv_between (by simp) hpos (by simp) (h.bytes_between hne)

/-- Only the length of the file matters. -/
theorem upToDate_congr (hcreated : s'.created = s.created)
    (hlen : ∀ k, k + s'.pending = s'.pos ↔ k + s.pending = s.pos) : s'.UpToDate ↔ s.UpToDate := by
  unfold Copy.UpToDate
  simp only [hcreated, hlen]

/-- What a `write` has not taken is missing from then on. -/
theorem upToDate_write (h : Inv call s) (hpc : s.pc = .write) {taken : List Byte}
    (hs' : s'.created = s.created.map (· ++ taken)) (hpos : s'.pos = s.pos)
    (hpc' : s'.pc ≠ .write) (htaken : taken.length ≤ s.num.toNat) :
    s'.UpToDate ↔ s.UpToDate ∧ taken.length = s.num.toNat := by
  unfold Copy.UpToDate
  rw [pending_of_ne hpc', pending_of_write hpc, hpos, hs']
  constructor
  · rintro ⟨bytes', hb', hlen⟩
    obtain ⟨bytes, hb, rfl⟩ := Option.map_eq_some_iff.1 hb'
    have hle := h.length_le bytes hb
    rw [pending_of_write hpc] at hle
    rw [List.length_append] at hlen
    exact ⟨⟨bytes, hb, by omega⟩, by omega⟩
  · rintro ⟨⟨bytes, hb, hlen⟩, hall⟩
    refine ⟨bytes ++ taken, by rw [hb, Option.map_some], ?_⟩
    rw [List.length_append]
    omega

/-- **One step.** The copy is lost with the first call that does not do what it should. -/
theorem lost_step (h : Inv call s) (hs : stepCopy call s a = some s') :
    Lost call s' ↔ Lost call s ∨ ¬ CopiesAll call s a := by
  cases stepCopy_cases hs with
  | usage hpc | openSrc hpc _ =>
      split_ifs <;> simp [Lost, CopiesAll, Pc.CopiesAll, hpc, EXIT_FAILURE, EXIT_SUCCESS]
  | created hpc =>
      have hzero := (h.none_before (by simp [hpc])).2
      simp [Lost, CopiesAll, Pc.CopiesAll, hpc, Copy.UpToDate, Copy.pending, hzero]
  | notCreated hpc =>
      have hnone := (h.none_before (by simp [hpc])).1
      simp [Lost, CopiesAll, Pc.CopiesAll, hpc, Copy.UpToDate, hnone]
  | @read hpc n hn hin =>
      have hup : Copy.UpToDate { s with
          pc := .write, num := n, pos := s.pos + n
          buf := (call.src.drop s.pos).take n ++ s.buf.drop n } ↔ s.UpToDate :=
        upToDate_congr rfl fun k => by
          simp only [Copy.pending, hpc, if_true, Int.toNat_natCast, reduceCtorEq, if_false]
          omega
      simp only [Lost, CopiesAll, Pc.CopiesAll, hpc, hup, Outcome.count, ne_eq, Nat.cast_inj,
        not_or]
  | readFails hpc =>
      have hup : Copy.UpToDate { s with pc := .write, num := -1 } ↔ s.UpToDate :=
        upToDate_congr rfl fun k => by simp [Copy.pending, hpc]
      have hnum : ((-1 : Int)) ≠ BUF_LEN := by decide
      have hcount : (0 : Nat) ≠ BUF_LEN := by decide
      simp [Lost, CopiesAll, Pc.CopiesAll, hpc, hup, Outcome.count, hnum, hcount]
  | @write hpc n bytes hb hsize hn =>
      rw [(h.block_size hpc hsize).2.2] at hn
      have htaken : (s.buf.take n).length = n :=
        List.length_take_of_le (hn.trans (h.block_length hpc))
      have hup : Copy.UpToDate { s with
          pc := .loopTest, created := some (bytes ++ s.buf.take n) } ↔
            s.UpToDate ∧ (s.buf.take n).length = s.num.toNat :=
        upToDate_write h hpc (by rw [hb]; rfl) rfl (by simp) (htaken.le.trans hn)
      simp only [Lost, CopiesAll, Pc.CopiesAll, hpc, hup, Outcome.count, htaken]
      tauto
  | writeFails hpc =>
      have hup : Copy.UpToDate { s with pc := .loopTest } ↔
            s.UpToDate ∧ ([] : List Byte).length = s.num.toNat :=
        upToDate_write h hpc (by simp) rfl (by simp) (Nat.zero_le _)
      simp only [Lost, CopiesAll, Pc.CopiesAll, hpc, hup, Outcome.count, List.length_nil]
      tauto
  | again hpc hnum =>
      have hup : Copy.UpToDate { s with pc := .read } ↔ s.UpToDate :=
        upToDate_congr rfl fun k => by simp [Copy.pending, hpc]
      simp only [Lost, CopiesAll, Pc.CopiesAll, hpc, hup]
      simp [hnum]
  | finish hpc hnum =>
      have hup : Copy.UpToDate { s with pc := .close } ↔ s.UpToDate :=
        upToDate_congr rfl fun k => by simp [Copy.pending, hpc]
      simp only [Lost, CopiesAll, Pc.CopiesAll, hpc, hup]
      tauto
  | close hpc =>
      have hup : Copy.UpToDate { s with pc := .exited EXIT_SUCCESS } ↔ s.UpToDate :=
        upToDate_congr rfl fun k => by simp [Copy.pending, hpc]
      simp [Lost, CopiesAll, Pc.CopiesAll, hpc, hup]

theorem inv_init (call : Call) (buf : List Byte) (num : Int) : Inv call (initCopy buf num) where
  pos_le := Nat.zero_le _
  none_before _ := ⟨rfl, rfl⟩
  length_le _ hb := by cases hb
  beginning _ hb := by cases hb
  block hpc := by cases hpc

theorem inv_run {buf : List Byte} {num : Int} {as : List Outcome}
    (hrun : execute (stepCopy call) (initCopy buf num) as = some s) : Inv call s := by
  have hstart : Reachable (· = initCopy buf num) (fun s s' => ∃ a, stepCopy call s a = some s')
      (initCopy buf num) := Reachable.start rfl
  refine Reachable.invariant (Inv call) ?_ ?_ (reachable_execute hstart hrun)
  · rintro s rfl
    exact inv_init call buf num
  · rintro s s' - hinv ⟨a, ha⟩
    exact hinv.step ha

end Steps

/-! ## Every run -/

section Runs

variable {call : Call} {buf : List Byte} {num : Int} {as : List Outcome} {s : Copy}

/-- At the end the destination is a copy unless it was lost. -/
theorem Inv.copied (h : Inv call s) (hexit : s.pc = .exited EXIT_SUCCESS) :
    s.created = some call.src ↔ ¬ Lost call s := by
  have hne : s.pc ≠ .write := by simp [hexit]
  have hpos := h.pos_le
  simp only [Lost, hexit, true_and, not_not, Copy.UpToDate, pending_of_ne hne, Nat.add_zero]
  constructor
  · intro hcreated
    have hle := (h.bytes_between hne call.src hcreated).1
    exact ⟨⟨call.src, hcreated, Nat.le_antisymm hle hpos⟩, Nat.le_antisymm hpos hle⟩
  · rintro ⟨⟨bytes, hcreated, hlen⟩, hall⟩
    rw [hcreated, (h.bytes_between hne bytes hcreated).2 hlen, hall, List.take_length]

/-- **A successful run copies the file** if and only if each of its calls does what it should: the
`open` of the destination succeeds, each `write` takes all it is given, and the first `read`
that does not fill the block leaves nothing unread. -/
theorem copies_iff (hrun : execute (stepCopy call) (initCopy buf num) as = some s)
    (hexit : s.pc = .exited EXIT_SUCCESS) :
    s.created = some call.src ↔
      execute (guarded (CopiesAll call) (stepCopy call)) (initCopy buf num) as = some s := by
  have hstart : ¬ Lost call (initCopy buf num) := by simp [Lost, initCopy]
  rw [(inv_run hrun).copied hexit,
    execute_guarded_iff (Inv call) (Lost call) (fun _ _ _ hi hs => hi.step hs)
      (fun _ _ _ hi hs => lost_step hi hs) (inv_init call buf num) hstart]
  simp [hrun]

end Runs

/-- Three bytes are copied. -/
theorem copies_iff_three :
    let call : Call := { argc := 3, src := [1, 2, 3], present := false }
    let as : List Outcome := [.go, .opened true, .opened true, .transferred (some 3),
      .transferred (some 3), .go, .go]
    let buf := List.replicate BUF_LEN 0
    ∃ s, execute (stepCopy call) (initCopy buf 0) as = some s ∧ (s.created = some call.src ↔
      execute (guarded (CopiesAll call) (stepCopy call)) (initCopy buf 0) as = some s) :=
  ⟨{ pc := .exited EXIT_SUCCESS, buf := [1, 2, 3] ++ List.replicate 125 0, num := 3, pos := 3
     created := some [1, 2, 3] }, rfl, copies_iff rfl rfl⟩

/-- The destination exists: the program copies nothing, and reports success. -/
theorem no_copy_succeeds :
    let call : Call := { argc := 3, src := [1, 2, 3], present := true }
    let buf := List.replicate BUF_LEN 0
    ¬ ∀ as s, execute (stepCopy call) (initCopy buf 0) as = some s →
      s.pc = .exited EXIT_SUCCESS → s.created = some call.src := by
  intro call buf hall
  have hcopied := hall [.go, .opened true, .opened false, .transferred (some 3), .transferred none,
    .go, .go]
    { pc := .exited EXIT_SUCCESS, buf := [1, 2, 3] ++ List.replicate 125 0, num := 3, pos := 3
      created := none } rfl rfl
  cases hcopied

end CPlayground.PosixCp
