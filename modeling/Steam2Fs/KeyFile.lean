import Steam2Fs.Memory
import Steam2Fs.StoreBlocks

/-!
# The key file

`key-audit` appends the keys it discovers to a file that the next mount loads.
Each key is a comment line that names the blob and a line `DEPOT@CRC=HEX`. The
writer and the line, spec and hex parsers are separate code; what one writes
the others read back, whatever the file names are, as long as they have no line
feed. The encoding of bytes in hex is a third-party crate, taken with the two
facts its documentation states: it writes lower-case digits, and decoding undoes
encoding.
-/

namespace Steam2Fs
open Text

structure HexCodec where
  encode : List UInt8 → Str
  decode : Str → Option (List UInt8)
  decode_encode : ∀ bs, decode (encode bs) = some bs
  encode_digits : ∀ bs, ∀ c ∈ encode bs, ∃ k < 16, c = k.digitChar

inductive SpecError where
  | notUtf8
  | notSpec (spec : Str)
  | badHex (hex : Str)
  | keyLength (got : ℕ)
  | badDepot (text : Str)
  | badCrc (text : Str)
  deriving DecidableEq, Repr

/-! ### Reading -/

section Insert
variable {κ ν : Type} [BEq κ]

/-- `HashMap::insert`. -/
def insertEntry (k : κ) (v : ν) (l : List (κ × ν)) : List (κ × ν) :=
  (k, v) :: l.filter fun e => !(e.1 == k)

variable [LawfulBEq κ]

theorem insertEntry_distinct {k : κ} {v : ν} {l : List (κ × ν)} (h : (l.map Prod.fst).Nodup) :
    ((insertEntry k v l).map Prod.fst).Nodup := by
  rw [insertEntry, List.map_cons, List.nodup_cons]
  refine ⟨fun hmem => ?_, h.sublist ((List.filter_sublist (l := l)).map _)⟩
  obtain ⟨e, he, heq⟩ := List.mem_map.mp hmem
  have hne := (List.mem_filter.mp he).2
  simp [heq] at hne

theorem lookup_insertEntry_self (k : κ) (v : ν) (l : List (κ × ν)) :
    (insertEntry k v l).lookup k = some v := by
  rw [insertEntry, List.lookup_cons, beq_self_eq_true]

theorem lookup_insertEntry_ne {k k' : κ} (h : k' ≠ k) (v : ν) (l : List (κ × ν)) :
    (insertEntry k v l).lookup k' = l.lookup k' := by
  have hbeq : (k' == k) = false := beq_false_of_ne h
  rw [insertEntry, List.lookup_cons, hbeq]
  induction l with
  | nil => rfl
  | cons e l ih =>
    by_cases he : e.1 = k
    · have hskip : (k' == e.1) = false := by rw [he]; exact hbeq
      rw [List.filter_cons_of_neg (by simp [he]), List.lookup_cons, hskip]
      exact ih
    · rw [List.filter_cons_of_pos (by simp [he]), List.lookup_cons, List.lookup_cons]
      cases k' == e.1 with
      | true => rfl
      | false => exact ih

end Insert

namespace KeyStore

def insert (ks : KeyStore) (depot : UInt32) (key : Key) : KeyStore :=
  { ks with
    overrides := insertEntry depot key ks.overrides
    overrides_distinct := insertEntry_distinct ks.overrides_distinct }

def insertForBlob (ks : KeyStore) (depot blobCrc : UInt32) (key : Key) : KeyStore :=
  { ks with
    blobOverrides := insertEntry (depot, blobCrc) key ks.blobOverrides
    blobOverrides_distinct := insertEntry_distinct ks.blobOverrides_distinct }

variable (hex : HexCodec)

def parseHex (text : Str) : Except SpecError Key :=
  match hex.decode text with
  | none => .error (.badHex text)
  | some bytes =>
    if h : bytes.length = 16 then .ok ⟨bytes.toArray, by simpa using h⟩
    else .error (.keyLength bytes.length)

/-- `DEPOT=HEX` or `DEPOT@BLOBCRC=HEX`. -/
def insertSpec (ks : KeyStore) (spec : Str) : Except SpecError KeyStore :=
  match splitOnce '=' spec with
  | none => .error (.notSpec spec)
  | some (target, digits) => do
    let key ← parseHex hex (trim digits)
    match splitOnce '@' (trim target) with
    | some (depot, crc) => match parseU32 10 depot, parseU32 16 crc with
      | some d, some c => .ok (ks.insertForBlob d c key)
      | none, _ => .error (.badDepot depot)
      | some _, none => .error (.badCrc crc)
    | none => match parseU32 10 (trim target) with
      | some d => .ok (ks.insert d key)
      | none => .error (.badDepot (trim target))

/-- The lines of a key file, with what an error leaves behind. -/
def loadLines : List Str → KeyStore → Except SpecError Unit × KeyStore
  | [], ks => (.ok (), ks)
  | l :: ls, ks =>
    let line := trim l
    if line.isEmpty ∨ line.head? = some '#' then loadLines ls ks
    else match ks.insertSpec hex line with
      | .ok ks' => loadLines ls ks'
      | .error e => (.error e, ks)

def loadFile (ks : KeyStore) (bytes : Bytes) : Except SpecError Unit × KeyStore :=
  match fromUtf8 bytes with
  | none => (.error .notUtf8, ks)
  | some text => ks.loadLines hex (lines text)

end KeyStore

/-! ### Writing -/

structure Discovered where
  fileName : Str
  depot : UInt32
  crc : UInt32
  key : Key
  source : UInt32

namespace Discovered
variable (hex : HexCodec) (x : Discovered)

def comment : Str :=
  "# ".toList ++ x.fileName ++ " (key of depot ".toList ++ decimal x.source.toNat ++ ")".toList

def spec : Str :=
  (decimal x.depot.toNat ++ '@' :: padZero 8 (hexLower x.crc.toNat)) ++
    '=' :: hex.encode x.key.toList

/-- What `writeln!` writes for a discovered key. -/
def text : Str := x.comment ++ '\n' :: (x.spec hex ++ ['\n'])

/-- The file after any number of runs, each of which appends what it found. -/
def file (runs : List (List Discovered)) : Bytes :=
  runs.flatMap fun found => found.flatMap fun x => utf8 (x.text hex)

end Discovered

def lastKey (found : List Discovered) (depot crc : UInt32) : Option Key :=
  (found.reverse.find? fun x => x.depot = depot ∧ x.crc = crc).map Discovered.key

/-! ### Reading back what was written -/

theorem digitChar_plain {k : ℕ} (hk : k < 16) :
    isWhitespace k.digitChar = false ∧ k.digitChar ≠ '=' ∧ k.digitChar ≠ '@' ∧
      k.digitChar ≠ '\n' ∧ k.digitChar ≠ '\r' ∧ k.digitChar ≠ '#' := by
  interval_cases k <;> decide

theorem stripSuffix_return {l : Str} (h : l.getLast? ≠ some '\r') :
    (stripSuffix ['\r'] l).getD l = l := by
  cases hstrip : stripSuffix ['\r'] l with
  | none => rfl
  | some t =>
    obtain rfl := stripSuffix_eq_some_iff.mp hstrip
    exact absurd List.getLast?_concat h

namespace Discovered
variable {hex : HexCodec} {x : Discovered}

theorem mem_target {c : Char}
    (hc : c ∈ decimal x.depot.toNat ++ '@' :: padZero 8 (hexLower x.crc.toNat)) :
    c = '@' ∨ ∃ k < 16, c = k.digitChar := by
  rcases List.mem_append.mp hc with hc | hc
  · obtain ⟨k, hk, rfl⟩ := digit_of_mem_toDigits (by decide) hc
    exact Or.inr ⟨k, by omega, rfl⟩
  rcases List.mem_cons.mp hc with rfl | hc
  · exact Or.inl rfl
  rcases mem_padZero hc with rfl | hc
  · exact Or.inr ⟨0, by decide, rfl⟩
  · exact Or.inr (digit_of_mem_toDigits (by decide) hc)

theorem mem_spec {c : Char} (hc : c ∈ x.spec hex) :
    c = '@' ∨ c = '=' ∨ ∃ k < 16, c = k.digitChar := by
  rcases List.mem_append.mp hc with hc | hc
  · rcases mem_target hc with h | h
    · exact Or.inl h
    · exact Or.inr (Or.inr h)
  rcases List.mem_cons.mp hc with rfl | hc
  · exact Or.inr (Or.inl rfl)
  · exact Or.inr (Or.inr (hex.encode_digits _ c hc))

theorem spec_plain {c : Char} (hc : c ∈ x.spec hex) :
    isWhitespace c = false ∧ c ≠ '\n' ∧ c ≠ '\r' ∧ c ≠ '#' := by
  rcases mem_spec hc with rfl | rfl | ⟨k, hk, rfl⟩
  · decide
  · decide
  · exact ⟨(digitChar_plain hk).1, (digitChar_plain hk).2.2.2⟩

theorem parseHex_encode (key : Key) :
    KeyStore.parseHex hex (hex.encode key.toList) = .ok key := by
  unfold KeyStore.parseHex
  rw [hex.decode_encode]
  have hlen : key.toList.length = 16 := by simp
  simp only [hlen, ↓reduceDIte]
  congr 1

theorem insertSpec_spec (ks : KeyStore) :
    ks.insertSpec hex (x.spec hex) = .ok (ks.insertForBlob x.depot x.crc x.key) := by
  have htarget : ∀ c ∈ decimal x.depot.toNat ++ '@' :: padZero 8 (hexLower x.crc.toNat),
      isWhitespace c = false ∧ c ≠ '=' := by
    intro c hc
    rcases mem_target hc with rfl | ⟨k, hk, rfl⟩
    · decide
    · exact ⟨(digitChar_plain hk).1, (digitChar_plain hk).2.1⟩
  have hdigits : ∀ c ∈ hex.encode x.key.toList, isWhitespace c = false := by
    intro c hc
    obtain ⟨k, hk, rfl⟩ := hex.encode_digits _ c hc
    exact (digitChar_plain hk).1
  have hat : '@' ∉ decimal x.depot.toNat := by
    intro hc
    obtain ⟨k, hk, he⟩ := digit_of_mem_toDigits (by decide) hc
    exact (digitChar_plain (show k < 16 by omega)).2.2.1 he.symm
  unfold KeyStore.insertSpec spec
  rw [splitOnce_append fun hmem => (htarget '=' hmem).2 rfl]
  dsimp only
  rw [trim_of_no_whitespace hdigits, trim_of_no_whitespace fun c hc => (htarget c hc).1,
    parseHex_encode, splitOnce_append hat]
  dsimp only [bind, Except.bind]
  rw [parseU32_decimal, parseU32_hex8]

theorem comment_head (x : Discovered) : ∃ cs, x.comment = '#' :: (cs ++ [')']) :=
  ⟨' ' :: (x.fileName ++ " (key of depot ".toList ++ decimal x.source.toNat), by simp [comment]⟩

theorem comment_skipped (x : Discovered) :
    trim x.comment = x.comment ∧ (stripSuffix ['\r'] x.comment).getD x.comment = x.comment := by
  obtain ⟨cs, hcs⟩ := x.comment_head
  have hlast : x.comment.getLast? = some ')' := by
    rw [hcs, ← List.cons_append, List.getLast?_concat]
  constructor
  · have hdrop : x.comment.dropWhile isWhitespace = x.comment := by
      rw [hcs, List.dropWhile_cons_of_neg (by decide)]
    unfold trim
    rw [hdrop, List.rdropWhile_eq_self_iff]
    intro hne
    rw [List.getLast?_eq_some_getLast hne, Option.some.injEq] at hlast
    rw [hlast]
    decide
  · apply stripSuffix_return
    rw [hlast]
    decide

theorem comment_no_newline (h : '\n' ∉ x.fileName) : '\n' ∉ x.comment := by
  have hdigits : '\n' ∉ decimal x.source.toNat := by
    intro hc
    obtain ⟨k, hk, he⟩ := digit_of_mem_toDigits (by decide) hc
    exact (digitChar_plain (show k < 16 by omega)).2.2.2.1 he.symm
  simp [comment, h, hdigits]

theorem loadLines_text (h : '\n' ∉ x.fileName) (rest : Str) (ks : KeyStore) :
    ks.loadLines hex (lines (x.text hex ++ rest)) =
      (ks.insertForBlob x.depot x.crc x.key).loadLines hex (lines rest) := by
  have htext : x.text hex ++ rest = x.comment ++ '\n' :: (x.spec hex ++ '\n' :: rest) := by
    simp [text]
  have hspec : '\n' ∉ x.spec hex := fun hc => (spec_plain hc).2.1 rfl
  have hreturn : (x.spec hex).getLast? ≠ some '\r' := by
    intro hlast
    exact (spec_plain (List.mem_of_getLast? hlast)).2.2.1 rfl
  have htrim : trim (x.spec hex) = x.spec hex :=
    trim_of_no_whitespace fun c hc => (spec_plain hc).1
  obtain ⟨cs, hcs⟩ := x.comment_head
  rw [htext, lines_append (comment_no_newline h), lines_append hspec, (comment_skipped x).2,
    stripSuffix_return hreturn, KeyStore.loadLines]
  rw [(comment_skipped x).1, if_pos (Or.inr (by rw [hcs]; rfl)), KeyStore.loadLines]
  have hkeep : ¬ ((x.spec hex).isEmpty = true ∨ (x.spec hex).head? = some '#') := by
    intro hor
    rcases hor with hempty | hhead
    · rw [List.isEmpty_iff] at hempty
      have hmem : '=' ∈ x.spec hex := by simp [spec]
      rw [hempty] at hmem
      cases hmem
    · exact (spec_plain (List.mem_of_head? hhead)).2.2.2 rfl
  rw [htrim, if_neg hkeep, insertSpec_spec]

theorem loadLines_texts {found : List Discovered} (h : ∀ x ∈ found, '\n' ∉ x.fileName)
    (ks : KeyStore) : ks.loadLines hex (lines (found.flatMap fun x => x.text hex)) =
      (.ok (), found.foldl (fun ks x => ks.insertForBlob x.depot x.crc x.key) ks) := by
  induction found generalizing ks with
  | nil => rfl
  | cons x found ih =>
    rw [List.flatMap_cons, loadLines_text (h x List.mem_cons_self)]
    exact ih (fun y hy => h y (List.mem_cons_of_mem x hy)) _

theorem file_eq (runs : List (List Discovered)) :
    file hex runs = utf8 (runs.flatten.flatMap fun x => x.text hex) := by
  unfold file utf8
  rw [List.flatMap_assoc, List.flatten_eq_flatMap, List.flatMap_assoc]
  rfl

theorem overrides_foldl (found : List Discovered) (ks : KeyStore) :
    (found.foldl (fun ks x => ks.insertForBlob x.depot x.crc x.key) ks).overrides = ks.overrides ∧
    (found.foldl (fun ks x => ks.insertForBlob x.depot x.crc x.key) ks).table = ks.table ∧
    ∀ depot crc, (found.foldl (fun ks x => ks.insertForBlob x.depot x.crc x.key) ks).blobOverrides.lookup
      (depot, crc) = (lastKey found depot crc).or (ks.blobOverrides.lookup (depot, crc)) := by
  induction found generalizing ks with
  | nil => exact ⟨rfl, rfl, fun _ _ => rfl⟩
  | cons x found ih =>
    obtain ⟨hover, htable, hblob⟩ := ih (ks.insertForBlob x.depot x.crc x.key)
    refine ⟨hover, htable, fun depot crc => ?_⟩
    rw [List.foldl_cons, hblob]
    have hlast : lastKey (x :: found) depot crc = (lastKey found depot crc).or
        (if x.depot = depot ∧ x.crc = crc then some x.key else none) := by
      unfold lastKey
      rw [List.reverse_cons, List.find?_append, Option.map_or]
      by_cases heq : x.depot = depot ∧ x.crc = crc
      · simp [heq]
      · simp [heq]
    rw [hlast, Option.or_assoc]
    congr 1
    by_cases heq : x.depot = depot ∧ x.crc = crc
    · obtain ⟨rfl, rfl⟩ := heq
      rw [if_pos ⟨rfl, rfl⟩]
      exact lookup_insertEntry_self _ _ _
    · rw [if_neg heq]
      refine lookup_insertEntry_ne (fun hpair => heq ?_) _ _
      exact ⟨(congrArg Prod.fst hpair).symm, (congrArg Prod.snd hpair).symm⟩

theorem lastKey_isSome {found : List Discovered} {x : Discovered} (hx : x ∈ found) :
    ∃ k, lastKey found x.depot x.crc = some k := by
  have hsome : (found.reverse.find? fun y => y.depot = x.depot ∧ y.crc = x.crc).isSome := by
    rw [List.find?_isSome]
    exact ⟨x, List.mem_reverse.mpr hx, by simp⟩
  obtain ⟨y, hy⟩ := Option.isSome_iff_exists.mp hsome
  exact ⟨y.key, by rw [lastKey, hy]; rfl⟩

theorem lastKey_eq_none {found : List Discovered} {depot crc : UInt32}
    (h : ∀ x ∈ found, ¬ (x.depot = depot ∧ x.crc = crc)) : lastKey found depot crc = none := by
  have hnone : (found.reverse.find? fun y => y.depot = depot ∧ y.crc = crc) = none := by
    rw [List.find?_eq_none]
    intro x hx
    simpa using h x (List.mem_reverse.mp hx)
  rw [lastKey, hnone]
  rfl

end Discovered

/-! ### The next mount -/

theorem Dump.works_of_discovered {d : Dump} {entry : BlobEntry} {sample : Dump.Sample} {k : Key}
    {depot : UInt32} (h : d.resolution entry sample = .discovered k depot) :
    d.works sample k = true := by
  have hsearch : ∀ cs tried, d.searchKeys sample tried cs = .discovered k depot →
      d.works sample k = true := by
    intro cs
    induction cs with
    | nil => exact fun tried hs => by cases hs
    | cons c cs ih =>
      intro tried hs
      rw [Dump.searchKeys] at hs
      split at hs
      next hworks =>
        cases hs
        exact hworks
      next => exact ih _ hs
  have hres : d.searchResolution sample = .discovered k depot → d.works sample k = true := by
    intro hs
    unfold Dump.searchResolution at hs
    split at hs
    · exact hsearch _ _ hs
    · cases hs
  unfold Dump.resolution at h
  split at h
  · split at h
    · cases h
    · exact hres h
  · exact hres h

/-- The file of any number of runs loads into any store, overrides exactly the
blobs it names with the keys written last, and makes a discovered key the
configured one. -/
theorem loadFile_discovered (hex : HexCodec) (runs : List (List Discovered))
    (hnames : ∀ x ∈ runs.flatten, '\n' ∉ x.fileName) (ks : KeyStore) :
    ∃ ks', ks.loadFile hex (Discovered.file hex runs) = (.ok (), ks') ∧
      (∀ x ∈ runs.flatten, ∃ k, lastKey runs.flatten x.depot x.crc = some k ∧
        ks'.getForBlob x.depot x.crc = some k) ∧
      (∀ depot, ks'.get depot = ks.get depot) ∧
      (∀ depot crc, (∀ x ∈ runs.flatten, ¬ (x.depot = depot ∧ x.crc = crc)) →
        ks'.getForBlob depot crc = ks.getForBlob depot crc) ∧
      ∀ (d d₀ : Dump) (entry : BlobEntry) (sample : Dump.Sample) (k : Key) (source : UInt32),
        d.keys = ks' → d.codec = d₀.codec → lastKey runs.flatten entry.depot entry.crc = some k →
        d₀.resolution entry sample = .discovered k source →
        d.resolution entry sample = .configured k := by
  obtain ⟨hover, htable, hblob⟩ := Discovered.overrides_foldl runs.flatten ks
  have hget : ∀ depot, (runs.flatten.foldl
      (fun ks x => ks.insertForBlob x.depot x.crc x.key) ks).get depot = ks.get depot := by
    intro depot
    unfold KeyStore.get
    rw [hover, htable]
  have hfor : ∀ depot crc k, lastKey runs.flatten depot crc = some k → (runs.flatten.foldl
      (fun ks x => ks.insertForBlob x.depot x.crc x.key) ks).getForBlob depot crc = some k := by
    intro depot crc k hk
    unfold KeyStore.getForBlob
    rw [hblob, hk]
    rfl
  refine ⟨_, ?_, fun x hx => ?_, hget, fun depot crc hout => ?_, ?_⟩
  · unfold KeyStore.loadFile
    rw [Discovered.file_eq, fromUtf8_utf8]
    exact Discovered.loadLines_texts hnames ks
  · obtain ⟨k, hk⟩ := Discovered.lastKey_isSome hx
    exact ⟨k, hk, hfor _ _ k hk⟩
  · unfold KeyStore.getForBlob
    rw [hblob, Discovered.lastKey_eq_none hout, hget]
    rfl
  · intro d d₀ entry sample k source hkeys hcodec hk hfound
    have hworks : d.works sample k = true := by
      have hold := Dump.works_of_discovered hfound
      unfold Dump.works at hold ⊢
      rw [hcodec]
      exact hold
    unfold Dump.resolution
    rw [hkeys, hfor _ _ k hk]
    dsimp only
    rw [if_pos hworks]

section Sample

def hexDecode : Str → Option (List UInt8)
  | [] => some []
  | [_] => none
  | a :: b :: rest => do
    let high ← digitVal 16 a
    let low ← digitVal 16 b
    let bytes ← hexDecode rest
    some (UInt8.ofNat (16 * high + low) :: bytes)

def hexPair (b : UInt8) : Str := [(b.toNat / 16).digitChar, (b.toNat % 16).digitChar]

theorem hexDecode_flatMap (bs : List UInt8) : hexDecode (bs.flatMap hexPair) = some bs := by
  induction bs with
  | nil => rfl
  | cons b bs ih =>
    have hb := b.toNat_lt
    have hhigh := digitVal_digitChar (show b.toNat / 16 < 16 by omega) (le_refl 16)
    have hlow := digitVal_digitChar (show b.toNat % 16 < 16 by omega) (le_refl 16)
    have hbyte : 16 * (b.toNat / 16) + b.toNat % 16 = b.toNat := by omega
    rw [List.flatMap_cons, hexPair, List.cons_append, List.cons_append, List.nil_append, hexDecode,
      hhigh, hlow, ih]
    change some (UInt8.ofNat (16 * (b.toNat / 16) + b.toNat % 16) :: bs) = _
    rw [hbyte, UInt8.ofNat_toNat]

/-- Two lower-case digits a byte. -/
def lowerHex : HexCodec where
  encode bs := bs.flatMap hexPair
  decode := hexDecode
  decode_encode := hexDecode_flatMap
  encode_digits bs c hc := by
    obtain ⟨b, -, hb⟩ := List.mem_flatMap.mp hc
    have hlt := b.toNat_lt
    rcases List.mem_cons.mp hb with rfl | hb
    · exact ⟨_, by omega, rfl⟩
    · rw [List.mem_singleton] at hb
      exact ⟨_, by omega, hb⟩

/-- A blob found in two runs with different keys. -/
theorem loadFile_discovered_twice :
    ∃ ks', KeyStore.empty.loadFile lowerHex (Discovered.file lowerHex
        [[⟨"7_0_000000aa_x.blob".toList, 7, 0xaa, Vector.replicate 16 1, 5⟩],
          [⟨"7_0_000000aa_x.blob".toList, 7, 0xaa, Vector.replicate 16 2, 6⟩]]) = (.ok (), ks') ∧
      ks'.getForBlob 7 0xaa = some (Vector.replicate 16 2) := by
  obtain ⟨ks', hload, hkeys, -⟩ := loadFile_discovered lowerHex
    [[⟨"7_0_000000aa_x.blob".toList, 7, 0xaa, Vector.replicate 16 1, 5⟩],
      [⟨"7_0_000000aa_x.blob".toList, 7, 0xaa, Vector.replicate 16 2, 6⟩]] (by decide)
    KeyStore.empty
  obtain ⟨k, hk, hget⟩ := hkeys _ List.mem_cons_self
  cases hk
  exact ⟨ks', hload, hget⟩

end Sample

end Steam2Fs
