import Steam2Fs.Format
import Steam2Fs.Memory

/-!
# Reading a range of a file

The two backends read a range piece by piece from something that may answer
any request short: `pread` on a local file, read packets of an SFTP server. The
server sees up to 16 requests at once, so some are sent for bytes behind a
reply that turns out short, and some for offsets past the end of the file.

A source answers the `n`-th request, for `want` bytes at `at`. Sums of offsets
leave `u64` only for offsets no file has; they panic in a build with overflow
checks and wrap in one without.
-/

namespace Steam2Fs

/-- Sum of two `u64` values, in a build with or without overflow checks. -/
def u64Add {ε : Type} (checks : Bool) (a b : ℕ) : Outcome ε ℕ :=
  if a + b < 2 ^ 64 then .ok (a + b)
  else if checks then .panic
  else .ok ((a + b) % 2 ^ 64)

theorem u64Add_ok {ε : Type} {checks : Bool} {a b : ℕ} (h : checks = true → a + b < 2 ^ 64) :
    (u64Add checks a b : Outcome ε ℕ) = .ok ((a + b) % 2 ^ 64) := by
  unfold u64Add
  split_ifs with hlt hchecks
  · rw [Nat.mod_eq_of_lt hlt]
  · exact absurd (h hchecks) hlt
  · rfl

theorem u64Add_lt {ε : Type} {checks : Bool} {a b : ℕ} (h : a + b < 2 ^ 64) :
    (u64Add checks a b : Outcome ε ℕ) = .ok (a + b) :=
  if_pos h

def u64Sub {ε : Type} (checks : Bool) (a b : ℕ) : Outcome ε ℕ :=
  if b ≤ a then .ok (a - b)
  else if checks then .panic
  else .ok (a + 2 ^ 64 - b)

theorem u64Sub_ok {ε : Type} {checks : Bool} {a b : ℕ} (h : b ≤ a) :
    (u64Sub checks a b : Outcome ε ℕ) = .ok (a - b) :=
  if_pos h

/-- The contents of a file, whose length fits `u64`. -/
structure FileBytes where
  bytes : Bytes
  length_lt : bytes.length < 2 ^ 64

/-- The source answers with the bytes of `file`: at least one of those asked
for where there are any, and one of the replies `atEnd` where there are none. -/
def Serves {ρ : Type} (data : Bytes → ρ) (atEnd : Set ρ) (file : FileBytes)
    (source : ℕ → ℕ → ℕ → ρ) : Prop :=
  ∀ n at_ want, 0 < want →
    if at_ < file.bytes.length then
      ∃ got, 0 < got ∧ got ≤ want ∧ source n at_ want = data ((file.bytes.drop at_).take got)
    else source n at_ want ∈ atEnd

namespace Sftp

def MAX_READ : ℕ := 64 * 1024
def MAX_IN_FLIGHT : ℕ := 16

inductive SftpError where
  | eof
  | other (msg : String)
  deriving DecidableEq, Repr

section ReadRange
variable (checks : Bool) (source : ℕ → ℕ → ℕ → Except SftpError Bytes)

def wants (base remaining : ℕ) : Outcome String (List (ℕ × ℕ)) :=
  Outcome.collect (fun start => do .ok (← u64Add checks base start, min MAX_READ (remaining - start)))
    (((List.range MAX_IN_FLIGHT).map (· * MAX_READ)).takeWhile (· < remaining))

inductive Batch where
  | more (out : Bytes)
  | ended (out : Bytes)
  | failed (e : String)

/-- The replies, strictly in order; those after a short one are dropped. -/
def takeReplies : List (Except SftpError Bytes × ℕ) → Bytes → Batch
  | [], out => .more out
  | (reply, want) :: rest, out => match reply with
    | .ok [] => .ended out
    | .ok (b :: bs) =>
      if (b :: bs).length < want then .more (out ++ b :: bs)
      else takeReplies rest (out ++ b :: bs)
    | .error .eof => .ended out
    | .error (.other e) => .failed s!"sftp read: {e}"

/-- The replies to a batch, with what was asked for; `sent` requests were made
before it. -/
def replies : ℕ → List (ℕ × ℕ) → List (Except SftpError Bytes × ℕ)
  | _, [] => []
  | sent, w :: ws => (source sent w.1 w.2, w.2) :: replies (sent + 1) ws

/-- The outer loop, stopped with `none` when it is still going after the given
number of batches. -/
def readLoop (offset len : ℕ) : ℕ → ℕ → Bytes → Option (Outcome String Bytes)
  | fuel, sent, out =>
    if len ≤ out.length then some (.ok out)
    else match fuel with
      | 0 => none
      | fuel + 1 =>
        match (do wants checks (← u64Add checks offset out.length) (len - out.length) :
          Outcome String (List (ℕ × ℕ))) with
        | .panic => some .panic
        | .err e => some (.err e)
        | .ok ws => match takeReplies (replies source sent ws) out with
          | .more out => readLoop offset len fuel (sent + ws.length) out
          | .ended out => some (.ok out)
          | .failed e => some (.err e)

/-- `SftpBackend::read_range`, once it has the handle of the file. -/
def readRange (fuel : ℕ) (offset len : UInt64) : Option (Outcome String Bytes) :=
  match (withCapacity 1 len.toNat : Outcome String Unit) with
  | .ok () => readLoop checks source offset.toNat len.toNat fuel 0 []
  | .err e => some (.err e)
  | .panic => some .panic

end ReadRange

/-! ### One batch -/

section Batch
variable {checks : Bool} {source : ℕ → ℕ → ℕ → Except SftpError Bytes} {file : FileBytes}

/-- The requests cover the `remaining` bytes from `pos` on without a gap. -/
def Consecutive : ℕ → ℕ → List (ℕ × ℕ) → Prop
  | _, _, [] => True
  | pos, remaining, w :: ws => 0 < remaining ∧ w = (pos % 2 ^ 64, min MAX_READ remaining) ∧
      Consecutive (pos + MAX_READ) (remaining - MAX_READ) ws

theorem wants_from {base remaining : ℕ} (h : checks = true → base + remaining ≤ 2 ^ 64)
    (n j : ℕ) :
    ∃ ws, Outcome.collect (fun start => do
        .ok (← (u64Add checks base start : Outcome String ℕ), min MAX_READ (remaining - start)))
        (((List.range' j n).map (· * MAX_READ)).takeWhile (· < remaining)) = .ok ws ∧
      Consecutive (base + j * MAX_READ) (remaining - j * MAX_READ) ws ∧
      (0 < n → j * MAX_READ < remaining → ws ≠ []) := by
  induction n generalizing j with
  | zero => exact ⟨[], rfl, trivial, fun hn => absurd hn (lt_irrefl 0)⟩
  | succ n ih =>
    rw [List.range'_succ, List.map_cons, List.takeWhile_cons]
    by_cases hj : j * MAX_READ < remaining
    · obtain ⟨ws, hws, hcons, -⟩ := ih (j + 1)
      have hadd : (u64Add checks base (j * MAX_READ) : Outcome String ℕ) =
          .ok ((base + j * MAX_READ) % 2 ^ 64) := by
        apply u64Add_ok
        intro hc
        have := h hc
        omega
      rw [if_pos (decide_eq_true hj)]
      refine ⟨_ :: ws, ?_, ⟨Nat.sub_pos_of_lt hj, rfl, ?_⟩, fun _ _ => List.cons_ne_nil _ _⟩
      · simp only [Outcome.collect, hws, hadd]
        rfl
      · rw [Nat.add_assoc, Nat.sub_sub, ← Nat.succ_mul]
        exact hcons
    · rw [if_neg (by simpa using hj)]
      exact ⟨[], rfl, trivial, fun _ hlt => absurd hlt hj⟩

theorem wants_ok {base remaining : ℕ} (h : checks = true → base + remaining ≤ 2 ^ 64)
    (hpos : 0 < remaining) :
    ∃ ws, wants checks base remaining = .ok ws ∧ Consecutive base remaining ws ∧ ws ≠ [] := by
  obtain ⟨ws, hws, hcons, hne⟩ := wants_from h MAX_IN_FLIGHT 0
  rw [Nat.zero_mul, Nat.add_zero, Nat.sub_zero] at hcons
  rw [Nat.zero_mul] at hne
  refine ⟨ws, ?_, hcons, hne (by decide) hpos⟩
  rw [wants, List.range_eq_range']
  exact hws

/-- What a batch may leave behind: bytes of the file, at least `least` and at
most `len` of them, and up to the end of the file if it says so. -/
def Batch.Good (file : FileBytes) (offset len least : ℕ) : Batch → Prop
  | .more out => out <+: file.bytes.drop offset ∧ least ≤ out.length ∧ out.length ≤ len
  | .ended out => out <+: file.bytes.drop offset ∧ out.length ≤ len ∧
      file.bytes.length ≤ offset + out.length
  | .failed _ => False

theorem Batch.Good.mono {offset len least least' : ℕ} {b : Batch}
    (h : b.Good file offset len least) (hle : least' ≤ least) : b.Good file offset len least' := by
  cases b with
  | more out => exact ⟨h.1, hle.trans h.2.1, h.2.2⟩
  | ended out => exact h
  | failed e => exact h

end Batch
end Sftp

theorem prefix_append_next {file out : Bytes} {offset : ℕ} (h : out <+: file.drop offset)
    (got : ℕ) : out ++ (file.drop (offset + out.length)).take got <+: file.drop offset := by
  obtain ⟨rest, hrest⟩ := h
  have hnext : file.drop (offset + out.length) = rest := by
    rw [← List.drop_drop, ← hrest, List.drop_left]
  rw [hnext, ← hrest, List.prefix_append_right_inj]
  exact List.take_prefix got rest

/-! What has been read so far is a prefix of the file from `offset` on. -/

namespace FileBytes
variable {file : FileBytes} {out : Bytes} {offset len : ℕ}

theorem read_end_lt (hout : out <+: file.bytes.drop offset) (hoffset : offset < 2 ^ 64) :
    offset + out.length < 2 ^ 64 := by
  have hshort := hout.length_le
  have hfile := file.length_lt
  rw [List.length_drop] at hshort
  omega

theorem read_full (hout : out <+: file.bytes.drop offset) (hlen : len = out.length) :
    out = (file.bytes.drop offset).take len := by
  rw [hlen]
  exact List.prefix_iff_eq_take.mp hout

theorem read_ended (hout : out <+: file.bytes.drop offset) (hle : out.length ≤ len)
    (hend : file.bytes.length ≤ offset + out.length) :
    out = (file.bytes.drop offset).take len := by
  have hwhole : out = file.bytes.drop offset := by
    apply hout.eq_of_length_le
    rw [List.length_drop]
    omega
  rw [← hwhole, List.take_of_length_le hle]

end FileBytes

namespace Sftp
section Batch
variable {checks : Bool} {source : ℕ → ℕ → ℕ → Except SftpError Bytes} {file : FileBytes}

theorem takeReplies_good
    (hserve : Serves Except.ok {.ok [], .error SftpError.eof} file source) {offset len : ℕ}
    {ws : List (ℕ × ℕ)} :
    ∀ {sent remaining : ℕ} {out : Bytes}, out <+: file.bytes.drop offset →
      offset + out.length < 2 ^ 64 → out.length + remaining = len →
      Consecutive (offset + out.length) remaining ws →
      (takeReplies (replies source sent ws) out).Good file offset len
        (out.length + min 1 ws.length) := by
  induction ws with
  | nil =>
    intro sent remaining out hout _ hlen _
    exact ⟨hout, by simp, by omega⟩
  | cons w ws ih =>
    intro sent remaining out hout hpos hlen hcons
    obtain ⟨hrem, hw, hcons⟩ := hcons
    subst hw
    rw [Nat.mod_eq_of_lt hpos, replies]
    have hwant : 0 < min MAX_READ remaining := by
      rw [Nat.lt_min]
      exact ⟨by decide, hrem⟩
    have hreply := hserve sent (offset + out.length) (min MAX_READ remaining) hwant
    split_ifs at hreply with hlt
    · obtain ⟨got, hgot, hle, hreply⟩ := hreply
      have hnext := prefix_append_next hout got
      have hlength : 0 < ((file.bytes.drop (offset + out.length)).take got).length ∧
          ((file.bytes.drop (offset + out.length)).take got).length ≤ min MAX_READ remaining := by
        rw [List.length_take, List.length_drop]
        omega
      dsimp only
      rw [hreply]
      generalize (file.bytes.drop (offset + out.length)).take got = data at hnext hlength
      cases data with
      | nil => exact absurd hlength.1 (lt_irrefl 0)
      | cons b bs =>
        have hsum : (out ++ b :: bs).length = out.length + (b :: bs).length := List.length_append
        dsimp only [takeReplies]
        split_ifs with hshort
        · refine ⟨hnext, ?_, ?_⟩
          · rw [hsum, List.length_cons]
            omega
          · omega
        · -- the reply is full, so the next request starts where it ends
          have hfull : (b :: bs).length = min MAX_READ remaining := by omega
          have hbelow : offset + (out ++ b :: bs).length < 2 ^ 64 :=
            FileBytes.read_end_lt hnext (by omega)
          have hleft : (out ++ b :: bs).length + (remaining - (b :: bs).length) = len := by omega
          have hrest : Consecutive (offset + (out ++ b :: bs).length)
              (remaining - (b :: bs).length) ws := by
            cases ws with
            | nil => trivial
            | cons w ws =>
              have hmore := hcons.1
              have hmax : (b :: bs).length = MAX_READ := by omega
              rw [hsum, ← Nat.add_assoc, hmax]
              exact hcons
          refine (ih hnext hbelow hleft hrest).mono ?_
          rw [hsum, List.length_cons]
          omega
    · dsimp only
      rcases hreply with hreply | hreply
      · rw [hreply]
        exact ⟨hout, by omega, by omega⟩
      · rw [hreply]
        exact ⟨hout, by omega, by omega⟩

theorem readLoop_exact
    (hserve : Serves Except.ok {.ok [], .error SftpError.eof} file source) {offset len : ℕ}
    (hoffset : offset < 2 ^ 64) (hchecks : checks = true → offset + len ≤ 2 ^ 64) {fuel : ℕ} :
    ∀ {sent : ℕ} {out : Bytes}, out <+: file.bytes.drop offset → out.length ≤ len →
      len - out.length ≤ fuel →
      readLoop checks source offset len fuel sent out =
        some (.ok ((file.bytes.drop offset).take len)) := by
  induction fuel with
  | zero =>
    intro sent out hout hle hfuel
    have hlen : len = out.length := by omega
    rw [readLoop, if_pos hlen.le, ← FileBytes.read_full hout hlen]
  | succ fuel ih =>
    intro sent out hout hle hfuel
    rw [readLoop]
    split_ifs with hdone
    · rw [← FileBytes.read_full hout (by omega)]
    · have hpos : offset + out.length < 2 ^ 64 := FileBytes.read_end_lt hout hoffset
      have hadd : (u64Add checks offset out.length : Outcome String ℕ) =
          .ok (offset + out.length) := by
        rw [u64Add_ok fun _ => hpos, Nat.mod_eq_of_lt hpos]
      have hroom : checks = true → offset + out.length + (len - out.length) ≤ 2 ^ 64 := by
        intro hc
        have := hchecks hc
        omega
      obtain ⟨ws, hws, hcons, hne⟩ := wants_ok hroom (by omega)
      rw [hadd, Outcome.ok_bind, hws]
      have hgood : (takeReplies (replies source sent ws) out).Good file offset len
          (out.length + min 1 ws.length) :=
        takeReplies_good hserve hout hpos (Nat.add_sub_cancel' hle) hcons
      dsimp only
      cases htake : takeReplies (replies source sent ws) out with
      | more out' =>
        rw [htake] at hgood
        obtain ⟨hout', hleast, hle'⟩ := hgood
        have hlength : 0 < ws.length := List.length_pos_of_ne_nil hne
        exact ih hout' hle' (by omega)
      | ended out' =>
        rw [htake] at hgood
        obtain ⟨hout', hle', hend⟩ := hgood
        dsimp only
        rw [← FileBytes.read_ended hout' hle' hend]
      | failed e =>
        rw [htake] at hgood
        exact hgood.elim

end Batch
end Sftp

namespace Local

section ReadRange
variable (checks : Bool) (source : ℕ → ℕ → ℕ → Except String Bytes)

def overwrite (buf : Bytes) (start : ℕ) (data : Bytes) : Bytes :=
  buf.take start ++ data ++ buf.drop (start + data.length)

def readLoop (offset len : ℕ) : ℕ → ℕ → Bytes → ℕ → Option (Outcome String Bytes)
  | fuel, sent, buf, filled =>
    if len ≤ filled then some (.ok (buf.take filled))
    else match fuel with
      | 0 => none
      | fuel + 1 => match (u64Add checks offset filled : Outcome String ℕ) with
        | .panic => some .panic
        | .err e => some (.err e)
        | .ok pos => match source sent pos (len - filled) with
          | .error e => some (.err e)
          | .ok [] => some (.ok (buf.take filled))
          | .ok (b :: bs) => readLoop offset len fuel (sent + 1)
              (overwrite buf filled (b :: bs)) (filled + (b :: bs).length)

/-- The loop of a local `read_range` over the zeroed buffer. -/
def readRange (fuel : ℕ) (offset len : UInt64) : Option (Outcome String Bytes) :=
  match (withCapacity 1 len.toNat : Outcome String Unit) with
  | .ok () => readLoop checks source offset.toNat len.toNat fuel 0 (List.replicate len.toNat 0) 0
  | .err e => some (.err e)
  | .panic => some .panic

end ReadRange

section Loop
variable {checks : Bool} {source : ℕ → ℕ → ℕ → Except String Bytes} {file : FileBytes}

theorem take_overwrite {buf data : Bytes} {start : ℕ} (h : start ≤ buf.length) :
    (overwrite buf start data).take (start + data.length) = buf.take start ++ data := by
  have hlength : start + data.length = (buf.take start ++ data).length := by
    rw [List.length_append, List.length_take, Nat.min_eq_left h]
  rw [overwrite, hlength, List.take_left]

theorem length_overwrite {buf data : Bytes} {start : ℕ} (h : start + data.length ≤ buf.length) :
    (overwrite buf start data).length = buf.length := by
  simp only [overwrite, List.length_append, List.length_take, List.length_drop]
  omega

theorem readLoop_exact (hserve : Serves Except.ok {.ok []} file source) {offset len : ℕ}
    (hoffset : offset < 2 ^ 64) {fuel : ℕ} :
    ∀ {sent filled : ℕ} {buf : Bytes}, buf.length = len → filled ≤ len →
      buf.take filled <+: file.bytes.drop offset → len - filled ≤ fuel →
      readLoop checks source offset len fuel sent buf filled =
        some (.ok ((file.bytes.drop offset).take len)) := by
  have hcount {buf : Bytes} {filled : ℕ} (hbuf : buf.length = len) (hle : filled ≤ len) :
      (buf.take filled).length = filled := by
    rw [List.length_take]
    omega
  induction fuel with
  | zero =>
    intro sent filled buf hbuf hle hout hfuel
    have hlen : len = filled := by omega
    rw [readLoop, if_pos hlen.le, ← FileBytes.read_full hout (by rw [hcount hbuf hle, hlen])]
  | succ fuel ih =>
    intro sent filled buf hbuf hle hout hfuel
    have hcount := hcount hbuf hle
    rw [readLoop]
    split_ifs with hdone
    · rw [← FileBytes.read_full hout (by omega)]
    · have hpos : offset + filled < 2 ^ 64 := by
        rw [← hcount]
        exact FileBytes.read_end_lt hout hoffset
      rw [u64Add_ok fun _ => hpos, Nat.mod_eq_of_lt hpos]
      have hreply := hserve sent (offset + filled) (len - filled) (by omega)
      split_ifs at hreply with hlt
      · obtain ⟨got, hgot, hwant, hreply⟩ := hreply
        have hnext := prefix_append_next hout got
        rw [hcount] at hnext
        have hlength : 0 < ((file.bytes.drop (offset + filled)).take got).length ∧
            ((file.bytes.drop (offset + filled)).take got).length ≤ len - filled := by
          rw [List.length_take, List.length_drop]
          omega
        dsimp only
        rw [hreply]
        generalize (file.bytes.drop (offset + filled)).take got = data at hnext hlength
        cases data with
        | nil => exact absurd hlength.1 (lt_irrefl 0)
        | cons b bs =>
          have hfits : filled + (b :: bs).length ≤ buf.length := by omega
          refine ih ?_ (by omega) ?_ (by omega)
          · rw [length_overwrite hfits, hbuf]
          · rw [take_overwrite (by omega)]
            exact hnext
      · dsimp only
        rw [hreply]
        dsimp only
        rw [← FileBytes.read_ended hout (by omega) (by omega)]

end Loop
end Local

/-! ### Both backends -/

section Both
variable {checks : Bool} {file : FileBytes} {offset len : UInt64} {fuel : ℕ}

theorem Sftp.readRange_serves {remote : ℕ → ℕ → ℕ → Except Sftp.SftpError Bytes}
    (hremote : Serves Except.ok {.ok [], .error Sftp.SftpError.eof} file remote)
    (hlen : len.toNat ≤ isizeMax)
    (hchecks : checks = true → offset.toNat + len.toNat ≤ 2 ^ 64) (hfuel : len.toNat ≤ fuel) :
    Sftp.readRange checks remote fuel offset len =
      some (.ok ((file.bytes.drop offset.toNat).take len.toNat)) := by
  have hcapacity : (withCapacity 1 len.toNat : Outcome String Unit) = .ok () :=
    withCapacity_ok (by rw [Nat.one_mul]; exact hlen)
  rw [Sftp.readRange, hcapacity]
  exact Sftp.readLoop_exact hremote (UInt64.toNat_lt offset) hchecks List.nil_prefix
    (Nat.zero_le _) hfuel

theorem Local.readRange_serves {disk : ℕ → ℕ → ℕ → Except String Bytes}
    (hdisk : Serves Except.ok {.ok []} file disk) (hlen : len.toNat ≤ isizeMax)
    (hfuel : len.toNat ≤ fuel) :
    Local.readRange checks disk fuel offset len =
      some (.ok ((file.bytes.drop offset.toNat).take len.toNat)) := by
  have hcapacity : (withCapacity 1 len.toNat : Outcome String Unit) = .ok () :=
    withCapacity_ok (by rw [Nat.one_mul]; exact hlen)
  rw [Local.readRange, hcapacity]
  refine Local.readLoop_exact hdisk (UInt64.toNat_lt offset) List.length_replicate
    (Nat.zero_le _) ?_ hfuel
  rw [List.take_zero]
  exact List.nil_prefix

end Both

/-- Whatever pieces the sources answer with, both backends return the bytes of
the range that the file has. -/
theorem readRange_exact (checks : Bool) (file : FileBytes) (offset len : UInt64)
    (remote : ℕ → ℕ → ℕ → Except Sftp.SftpError Bytes)
    (disk : ℕ → ℕ → ℕ → Except String Bytes)
    (hremote : Serves Except.ok {.ok [], .error Sftp.SftpError.eof} file remote)
    (hdisk : Serves Except.ok {.ok []} file disk) (hlen : len.toNat ≤ isizeMax)
    (hchecks : checks = true → offset.toNat + len.toNat ≤ 2 ^ 64) (fuel : ℕ)
    (hfuel : len.toNat ≤ fuel) :
    Sftp.readRange checks remote fuel offset len =
        some (.ok ((file.bytes.drop offset.toNat).take len.toNat)) ∧
      Local.readRange checks disk fuel offset len =
        some (.ok ((file.bytes.drop offset.toNat).take len.toNat)) := by
  constructor
  · exact Sftp.readRange_serves hremote hlen hchecks hfuel
  · exact Local.readRange_serves hdisk hlen hfuel

/-- What the store model reads from a dump in memory is what either backend
reads from sources that serve its files. -/
theorem memory_readAt {m : MemoryDump} {path : Text.Str} {file : FileBytes}
    (hfile : m.file path = some file.bytes) {offset len : UInt64} (hlen : len.toNat ≤ isizeMax)
    {remote : ℕ → ℕ → ℕ → Except Sftp.SftpError Bytes}
    (hremote : Serves Except.ok {.ok [], .error Sftp.SftpError.eof} file remote)
    {disk : ℕ → ℕ → ℕ → Except String Bytes} (hdisk : Serves Except.ok {.ok []} file disk) :
    ∃ bytes, m.dump.readAt path offset.toNat len.toNat = .ok bytes ∧
      Sftp.readRange false remote len.toNat offset len = some (.ok bytes) ∧
      Local.readRange false disk len.toNat offset len = some (.ok bytes) := by
  refine ⟨(file.bytes.drop offset.toNat).take len.toNat, ?_, ?_, ?_⟩
  · dsimp only [MemoryDump.dump]
    rw [hfile]
  · exact Sftp.readRange_serves hremote hlen (by simp) le_rfl
  · exact Local.readRange_serves hdisk hlen le_rfl

section Sample

def dripping {ε : Type} (file : FileBytes) (_ at_ _ : ℕ) : Except ε Bytes :=
  .ok ((file.bytes.drop at_).take 1)

theorem dripping_serves {ε : Type} (file : FileBytes) {atEnd : Set (Except ε Bytes)}
    (hend : .ok [] ∈ atEnd) : Serves Except.ok atEnd file (dripping file) := by
  intro n at_ want hwant
  split_ifs with hlt
  · exact ⟨1, Nat.one_pos, hwant, rfl⟩
  · rw [dripping, List.drop_eq_nil_of_le (Nat.not_lt.mp hlt), List.take_nil]
    exact hend

def fiveBytes : FileBytes := ⟨[10, 11, 12, 13, 14], by decide⟩

theorem fiveBytes_readRange :
    Sftp.readRange true (dripping fiveBytes) 9 2 9 = some (.ok [12, 13, 14]) ∧
      Local.readRange true (dripping fiveBytes) 9 2 9 = some (.ok [12, 13, 14]) :=
  readRange_exact true fiveBytes 2 9 (dripping fiveBytes) (dripping fiveBytes)
    (dripping_serves fiveBytes (Or.inl rfl)) (dripping_serves fiveBytes rfl) (by decide)
    (fun _ => by decide) 9 (by decide)

/-- No vector has room for a request of 2^63 bytes, however short the file is.
With overflow checks, a batch that runs past the last `u64` offset panics. -/
theorem fiveBytes_readRange_panics :
    Serves Except.ok {.ok [], .error Sftp.SftpError.eof} fiveBytes (dripping fiveBytes) ∧
      Serves Except.ok {.ok []} fiveBytes (dripping fiveBytes : ℕ → ℕ → ℕ → Except String Bytes) ∧
      (∀ checks fuel,
        Sftp.readRange checks (dripping fiveBytes) fuel 0 0x8000000000000000 = some .panic ∧
          Local.readRange checks (dripping fiveBytes) fuel 0 0x8000000000000000 = some .panic) ∧
      ∀ fuel, Sftp.readRange true (dripping fiveBytes) (fuel + 1) 0xffffffffffffffff 65537 =
        some .panic := by
  refine ⟨dripping_serves fiveBytes (Or.inl rfl), dripping_serves fiveBytes rfl, ?_, ?_⟩
  · intro checks fuel
    have hlen : (0x8000000000000000 : UInt64).toNat = 2 ^ 63 := rfl
    have hcapacity :
        (withCapacity 1 (0x8000000000000000 : UInt64).toNat : Outcome String Unit) = .panic := by
      apply withCapacity_panic
      rw [hlen, isizeMax]
      omega
    constructor
    · rw [Sftp.readRange, hcapacity]
    · rw [Local.readRange, hcapacity]
  · intro fuel
    have hwants : Sftp.wants true 0xffffffffffffffff
        ((65537 : UInt64).toNat - ([] : Bytes).length) = .panic := by decide +kernel
    have hcapacity : (withCapacity 1 (65537 : UInt64).toNat : Outcome String Unit) = .ok () :=
      withCapacity_ok (by decide)
    have hlong : ¬ (65537 : UInt64).toNat ≤ ([] : Bytes).length := by decide
    have hbase : (u64Add true (0xffffffffffffffff : UInt64).toNat ([] : Bytes).length :
        Outcome String ℕ) = .ok 0xffffffffffffffff := rfl
    rw [Sftp.readRange, hcapacity]
    dsimp only
    rw [Sftp.readLoop, if_neg hlong, hbase, Outcome.ok_bind, hwants]

end Sample
end Steam2Fs
