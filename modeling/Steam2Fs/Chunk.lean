import Steam2Fs.ChecksumTable

/-!
# Decoding of one dat block

`decode` is the reference decoder, `decodeOwned` the one the store calls on
bytes it owns; they agree on every input. `decodeVerified` is how a candidate
key is tested: the decoded bytes have to match the stored checksum.
-/

namespace Steam2Fs.Chunk

/-- `adler32(seed 0) ^ crc32`. -/
def checksum (data : Bytes) : UInt32 :=
  ((Adler32.fromChecksum 0).writeSlice data).checksum ^^^ crc32 data

section Decode
variable (codec : Codec)

def inflate (z : Bytes) : Outcome FormatError Bytes :=
  match codec.zlibTake (BLOCK_SIZE + 1) z with
  | .error e => .err (.zlib e)
  | .ok out =>
    if out.length > BLOCK_SIZE then .err (.malformed "block inflates past BLOCK_SIZE")
    else .ok out

def needKey (key : Option Key) : Outcome FormatError Key :=
  Outcome.ofOption (.malformed "encrypted block but no depot key") key

def decode (mode : Mode) (raw : Bytes) (key : Option Key) : Outcome FormatError Bytes :=
  match mode with
  | .plain => .ok raw
  | .compressed => inflate codec raw
  | .compressedEncrypted => do
    let key ← needKey key
    let encryptedSize := (← u32At raw 0).toNat
    let decompressedSize := (← u32At raw 4).toNat
    if decompressedSize > BLOCK_SIZE then
      .err (.malformed "encrypted block header: decompressed size too large")
    else if encryptedSize ≠ raw.length - 8 then
      .err (.malformed s!"encrypted block header says {encryptedSize} bytes, stored {raw.length - 8}")
    else
      let body ← Outcome.ofOption (.malformed "encrypted block truncated")
        (getRange raw 8 raw.length)
      let out ← inflate codec (codec.aesCfb key body)
      if out.length ≠ decompressedSize then
        .err (.malformed
          s!"encrypted block: inflated {out.length} bytes, header says {decompressedSize}")
      else .ok out
  | .encrypted => do
    let key ← needKey key
    .ok (codec.aesCfb key raw)

/-- Plain and encrypted blocks keep their length, so they need no second buffer. -/
def decodeOwned (mode : Mode) (raw : Bytes) (key : Option Key) : Outcome FormatError Bytes :=
  match mode with
  | .plain => .ok raw
  | .encrypted => do
    let key ← needKey key
    .ok (codec.aesCfb key raw)
  | .compressed | .compressedEncrypted => decode codec mode raw key

def decodeVerified (mode : Mode) (raw : Bytes) (key : Option Key) (expected : UInt32) :
    Outcome FormatError Bytes := do
  let out ← decode codec mode raw key
  let actual := checksum out
  if actual ≠ expected then
    .err (.malformed ("checksum " ++ hexPad 8 actual.toNat ++ " != stored " ++
      hexPad 8 expected.toNat))
  else .ok out

theorem decodeOwned_eq_decode (mode : Mode) (raw : Bytes) (key : Option Key) :
    decodeOwned codec mode raw key = decode codec mode raw key := by
  cases mode <;> rfl

theorem decodeVerified_eq_ok {mode : Mode} {raw : Bytes} {key : Option Key} {expected : UInt32}
    {out : Bytes} :
    decodeVerified codec mode raw key expected = .ok out ↔
      decode codec mode raw key = .ok out ∧ checksum out = expected := by
  unfold decodeVerified
  cases decode codec mode raw key with
  | ok b =>
    by_cases h : checksum b = expected
    · simp only [Outcome.ok_bind, ne_eq, h, not_true_eq_false, ↓reduceIte, Outcome.ok.injEq]
      exact ⟨fun hb => ⟨hb, hb ▸ h⟩, fun hb => hb.1⟩
    · simp only [Outcome.ok_bind, ne_eq, h, not_false_eq_true, ↓reduceIte, reduceCtorEq,
        Outcome.ok.injEq, false_iff, not_and]
      exact fun hb hc => h (hb ▸ hc)
  | err e => simp
  | panic => simp

theorem inflate_returns (z : Bytes) : (inflate codec z).Returns := by
  unfold inflate
  cases codec.zlibTake (BLOCK_SIZE + 1) z with
  | error e => simp
  | ok out => exact Outcome.returns_guard fun _ => Outcome.returns_ok _

theorem decode_returns (mode : Mode) (raw : Bytes) (key : Option Key) :
    (decode codec mode raw key).Returns := by
  cases mode with
  | plain => simp [decode]
  | compressed => exact inflate_returns codec raw
  | encrypted => exact (Outcome.returns_ofOption _ _).bind fun _ _ => by simp
  | compressedEncrypted =>
    refine (Outcome.returns_ofOption _ _).bind fun k _ => ?_
    refine (u32At_returns raw (by decide)).bind fun e _ => ?_
    refine (u32At_returns raw (by decide)).bind fun d _ => ?_
    refine Outcome.returns_guard fun _ => Outcome.returns_guard fun _ => ?_
    refine (Outcome.returns_ofOption _ _).bind fun body _ => ?_
    refine (inflate_returns codec _).bind fun out _ => ?_
    exact Outcome.returns_guard fun _ => Outcome.returns_ok _

theorem inflate_length {z out : Bytes} (h : inflate codec z = .ok out) :
    out.length ≤ BLOCK_SIZE := by
  unfold inflate at h
  split at h
  · cases h
  · split_ifs at h with hlen
    cases h
    omega

theorem decode_length {mode : Mode} {raw : Bytes} {key : Option Key} {out : Bytes}
    (h : decode codec mode raw key = .ok out) : out.length ≤ max raw.length BLOCK_SIZE := by
  cases mode with
  | plain =>
    cases h
    exact le_max_left _ _
  | compressed => exact (inflate_length codec h).trans (le_max_right _ _)
  | encrypted =>
    obtain ⟨k, -, h⟩ := Outcome.bind_eq_ok.mp h
    cases h
    rw [codec.aesCfb_length]
    exact le_max_left _ _
  | compressedEncrypted =>
    iterate 3 obtain ⟨_, -, h⟩ := Outcome.bind_eq_ok.mp h
    dsimp only at h
    split_ifs at h
    obtain ⟨body, -, h⟩ := Outcome.bind_eq_ok.mp h
    obtain ⟨out', hout, h⟩ := Outcome.bind_eq_ok.mp h
    split_ifs at h
    cases h
    exact (inflate_length codec hout).trans (le_max_right _ _)

end Decode
end Steam2Fs.Chunk
