import Steam2Fs.Words

/-!
# The blob container's format

`write` lays out a container with any slack word: the header, then the entries
one after the other, keys and values of any length their fields can hold.
Parsing what was written returns the entries where they were put, whatever
follows the container.

The other direction is weaker than the layout promises. The entry loop stops at
the first cursor that is not below the declared total, but checks keys and
values against the buffer, so an accepted container is one that `write` gives
exactly when stepping over entries from the end of the header meets the total.
-/

namespace Steam2Fs
open Layout Outcome

namespace Blob

abbrev Pair := Bytes × Bytes

def writeEntry (e : Pair) : Bytes :=
  leBytes 2 e.1.length ++ leBytes 4 e.2.length ++ e.1 ++ e.2

def write (slack : UInt32) (es : List Pair) : Bytes :=
  let body := es.flatMap writeEntry
  leBytes 2 MAGIC_PLAIN.toNat ++ leBytes 4 (10 + body.length) ++ word slack ++ body

def entriesAt : ℕ → List Pair → List Entry
  | _, [] => []
  | pos, e :: es =>
    ⟨e.1, e.2, pos + 6 + e.1.length⟩ :: entriesAt (pos + (writeEntry e).length) es

def Entry.pair (e : Entry) : Pair := (e.key, e.value)

def Fits (e : Pair) : Prop := e.1.length < 2 ^ 16 ∧ e.2.length < 2 ^ 32

@[simp] theorem writeEntry_length (e : Pair) :
    (writeEntry e).length = 6 + e.1.length + e.2.length := by
  simp only [writeEntry, List.length_append, leBytes_length]

section Entries
variable {data : Bytes}

theorem getRange_of_stands {pos : ℕ} {a : Bytes} (h : Stands data pos a)
    (hle : pos + a.length ≤ data.length) : getRange data pos (pos + a.length) = some a := by
  rw [getRange, if_pos ⟨Nat.le_add_right _ _, hle⟩, Nat.add_sub_cancel_left, h.take_eq]

theorem stands_of_getRange {lo hi : ℕ} {a : Bytes} (h : getRange data lo hi = some a) :
    Stands data lo a := by
  obtain ⟨-, -, rfl⟩ := getRange_eq_some.mp h
  exact stands_slice data lo (hi - lo)

theorem parseEntry_sound {pos next : ℕ} {e : Entry} (h : parseEntry data pos = .ok (e, next)) :
    Stands data pos (writeEntry e.pair) ∧ Fits e.pair ∧
      e.valueOffset = pos + 6 + e.key.length ∧ next = pos + (writeEntry e.pair).length := by
  obtain ⟨klen, hklen, h⟩ := bind_eq_ok.mp h
  obtain ⟨p2, hp2, h⟩ := bind_eq_ok.mp h
  obtain ⟨vlen, hvlen, h⟩ := bind_eq_ok.mp h
  obtain ⟨p6, hp6, h⟩ := bind_eq_ok.mp h
  obtain ⟨valueOffset, hvalueOffset, h⟩ := bind_eq_ok.mp h
  obtain ⟨key, hkey, h⟩ := bind_eq_ok.mp h
  obtain ⟨valueEnd, hvalueEnd, h⟩ := bind_eq_ok.mp h
  obtain ⟨value, hvalue, h⟩ := bind_eq_ok.mp h
  obtain ⟨both, hboth, h⟩ := bind_eq_ok.mp h
  obtain ⟨last, hlast, h⟩ := bind_eq_ok.mp h
  cases h
  obtain rfl := usizeAdd_eq_ok hp2
  obtain rfl := usizeAdd_eq_ok hp6
  obtain rfl := usizeAdd_eq_ok hvalueOffset
  obtain rfl := usizeAdd_eq_ok hvalueEnd
  obtain rfl := usizeAdd_eq_ok hboth
  obtain rfl := usizeAdd_eq_ok hlast
  have hkey := ofOption_eq_ok.mp hkey
  have hvalue := ofOption_eq_ok.mp hvalue
  have hkeyLen : key.length = klen.toNat := by
    rw [getRange_length hkey, Nat.add_sub_cancel_left]
  have hvalueLen : value.length = vlen.toNat := by
    rw [getRange_length hvalue, Nat.add_sub_cancel_left]
  refine ⟨?_, ⟨?_, ?_⟩, ?_, ?_⟩
  · simp only [Entry.pair, writeEntry, stands_append, List.length_append, leBytes_length, hkeyLen,
      hvalueLen, ← Nat.add_assoc]
    exact ⟨⟨⟨u16At_sound hklen, u32At_sound hvlen⟩, stands_of_getRange hkey⟩,
      stands_of_getRange hvalue⟩
  · change key.length < 2 ^ 16
    rw [hkeyLen]
    exact klen.toNat_lt
  · change value.length < 2 ^ 32
    rw [hvalueLen]
    exact vlen.toNat_lt
  · rw [hkeyLen]
  · rw [writeEntry_length]
    change _ = pos + (6 + key.length + value.length)
    omega

theorem parseEntry_complete {pos : ℕ} {e : Pair} (he : Fits e)
    (h : Stands data pos (writeEntry e)) (hpos : pos + (writeEntry e).length < 2 ^ 64) :
    parseEntry data pos =
      .ok (⟨e.1, e.2, pos + 6 + e.1.length⟩, pos + (writeEntry e).length) := by
  have hend := h.end_le (by rw [writeEntry_length]; omega)
  rw [writeEntry_length] at hpos hend ⊢
  have hklen : (UInt16.ofNat e.1.length).toNat = e.1.length := UInt16.toNat_ofNat_of_lt' he.1
  have hvlen : (UInt32.ofNat e.2.length).toNat = e.2.length := ofNat32_toNat he.2
  rw [writeEntry, ← hklen, ← word_ofNat he.2] at h
  simp only [stands_append, List.length_append, leBytes_length, word_length, ← Nat.add_assoc] at h
  obtain ⟨⟨⟨hk, hv⟩, hkey⟩, hvalue⟩ := h
  have hkeyRange : getRange data (pos + 6) (pos + 6 + e.1.length) = some e.1 :=
    getRange_of_stands hkey (by omega)
  have hvalueRange : getRange data (pos + 6 + e.1.length) (pos + 6 + e.1.length + e.2.length) =
      some e.2 := getRange_of_stands hvalue (by omega)
  unfold parseEntry
  rw [u16At_complete hk (by omega), ok_bind, usizeAdd_ok (by omega), ok_bind,
    u32At_complete hv (by omega), ok_bind, usizeAdd_ok (by omega), ok_bind, hklen, hvlen,
    usizeAdd_ok (by omega), ok_bind, hkeyRange, ofOption, ok_bind, usizeAdd_ok (by omega), ok_bind,
    hvalueRange, ofOption, ok_bind, usizeAdd_ok (by omega), ok_bind, usizeAdd_ok (by omega),
    ok_bind]
  have hnext : pos + 6 + (e.1.length + e.2.length) = pos + (6 + e.1.length + e.2.length) := by
    omega
  rw [hnext]

theorem parseFrom_complete {es : List Pair} {fuel pos total : ℕ} (hes : ∀ e ∈ es, Fits e)
    (h : Stands data pos (es.flatMap writeEntry))
    (htotal : pos + (es.flatMap writeEntry).length = total) (hfuel : total ≤ pos + fuel)
    (hbound : total < 2 ^ 64) : parseFrom data total fuel pos = .ok (entriesAt pos es) := by
  induction es generalizing fuel pos with
  | nil =>
    have hdone : ¬ pos < total := by
      rw [List.flatMap_nil, List.length_nil] at htotal
      omega
    cases fuel with
    | zero => rfl
    | succ fuel => rw [parseFrom, if_neg hdone, entriesAt]
  | cons e es ih =>
    obtain ⟨he, hes⟩ := List.forall_mem_cons.mp hes
    rw [List.flatMap_cons, stands_append] at h
    rw [List.flatMap_cons, List.length_append] at htotal
    have hlen := writeEntry_length e
    cases fuel with
    | zero => omega
    | succ fuel =>
      have hentry := parseEntry_complete he h.1 (by omega)
      have hfuel : total ≤ pos + (writeEntry e).length + fuel := by omega
      have hrest := ih hes h.2 (by omega) hfuel
      rw [parseFrom, if_pos (by omega), hentry, ok_bind]
      dsimp only
      rw [hrest, ok_bind, entriesAt]

end Entries

/-! What was written is read back. -/

section Written
variable {slack : UInt32} {es : List Pair}

theorem write_length (slack : UInt32) (es : List Pair) :
    (write slack es).length = 10 + (es.flatMap writeEntry).length := by
  simp only [write, List.length_append, leBytes_length, word_length]

theorem stands_write_iff {data : Bytes} :
    Stands data 0 (write slack es) ↔ Stands data 0 (leBytes 2 MAGIC_PLAIN.toNat) ∧
      Stands data 2 (leBytes 4 (10 + (es.flatMap writeEntry).length)) ∧
      Stands data 6 (word slack) ∧ Stands data 10 (es.flatMap writeEntry) := by
  simp only [write, stands_append, List.length_append, leBytes_length, word_length, Nat.zero_add,
    and_assoc]

theorem parse_of_stands {data : Bytes} (hes : ∀ e ∈ es, Fits e)
    (hsize : (write slack es).length < 2 ^ 32) (h : Stands data 0 (write slack es)) :
    parse data = .ok ⟨entriesAt 10 es⟩ := by
  rw [write_length] at hsize
  have hend := h.end_le (by rw [write_length]; omega)
  rw [write_length] at hend
  obtain ⟨hmagic, htotal, -, hbody⟩ := stands_write_iff.mp h
  rw [← word_ofNat hsize] at htotal
  have htotalWord : (UInt32.ofNat (10 + (es.flatMap writeEntry).length)).toNat =
      10 + (es.flatMap writeEntry).length := ofNat32_toNat hsize
  have hfuel : 10 + (es.flatMap writeEntry).length ≤
      10 + (10 + (es.flatMap writeEntry).length) := by omega
  have hloop := parseFrom_complete hes hbody rfl hfuel (by omega)
  unfold parse
  rw [u16At_complete hmagic (by omega), ok_bind, if_neg (by simp), u32At_complete htotal (by omega),
    ok_bind]
  dsimp only
  rw [htotalWord, if_neg (by omega), hloop, ok_bind]

theorem entriesAt_pairs (pos : ℕ) (es : List Pair) : (entriesAt pos es).map Entry.pair = es := by
  induction es generalizing pos with
  | nil => rfl
  | cons e es ih => rw [entriesAt, List.map_cons, ih, Entry.pair]

theorem entriesAt_stands {data : Bytes} {pos : ℕ} (h : Stands data pos (es.flatMap writeEntry)) :
    ∀ e ∈ entriesAt pos es, Stands data e.valueOffset e.value ∧
      e.valueOffset + e.value.length ≤ pos + (es.flatMap writeEntry).length := by
  induction es generalizing pos with
  | nil => simp [entriesAt]
  | cons e es ih =>
    rw [List.flatMap_cons, stands_append] at h
    rw [List.flatMap_cons, List.length_append, entriesAt, List.forall_mem_cons]
    have hentry := h.1
    simp only [writeEntry, stands_append, List.length_append, leBytes_length, ← Nat.add_assoc]
      at hentry
    have hlen := writeEntry_length e
    refine ⟨⟨hentry.2, ?_⟩, ?_⟩
    · dsimp only
      omega
    · intro e' he'
      obtain ⟨hstands, hle⟩ := ih h.2 e' he'
      exact ⟨hstands, by omega⟩

end Written

/-! Lookups take the first entry with the key. -/

structure FirstWins (b : Blob) : Prop where
  found : ∀ (i : ℕ) (e : Entry), b.entries[i]? = some e →
    (∀ j < i, ∀ e', b.entries[j]? = some e' → e'.key ≠ e.key) →
    b.get e.key = some e.value ∧
      ∀ k : UInt32, leBytes32 k = e.key →
        b.require k = .ok e.value ∧ b.valueOffset k = .ok e.valueOffset
  missing : ∀ key : Bytes, (∀ e ∈ b.entries, e.key ≠ key) →
    b.get key = none ∧
      ∀ k : UInt32, leBytes32 k = key →
        b.require k = .err (missingKey k) ∧ b.valueOffset k = .err (missingKey k)

theorem find_first {es : List Entry} {i : ℕ} {e : Entry} (hi : es[i]? = some e)
    (hfirst : ∀ j < i, ∀ e', es[j]? = some e' → e'.key ≠ e.key) :
    (es.find? fun e' => e'.key = e.key) = some e := by
  obtain ⟨hlt, hget⟩ := List.getElem?_eq_some_iff.mp hi
  rw [List.find?_eq_some_iff_getElem]
  refine ⟨by simp, i, hlt, hget, fun j hj => ?_⟩
  have hne := hfirst j hj es[j] (List.getElem?_eq_getElem _)
  simpa using hne

theorem firstWins (b : Blob) : b.FirstWins := by
  constructor
  · intro i e hi hfirst
    have hfind := find_first hi hfirst
    refine ⟨by rw [get, hfind, Option.map_some], fun k hk => ⟨?_, ?_⟩⟩
    · rw [require, getU32Key, hk, get, hfind]
      rfl
    · rw [valueOffset, hk, hfind]
      rfl
  · intro key hkey
    have hfind : (b.entries.find? fun e => e.key = key) = none := by
      rw [List.find?_eq_none]
      intro e he
      simpa using hkey e he
    refine ⟨by rw [get, hfind, Option.map_none], fun k hk => ⟨?_, ?_⟩⟩
    · rw [require, getU32Key, hk, get, hfind]
      rfl
    · rw [valueOffset, hk, hfind]
      rfl

/-- Parsing a written container gives back its entries in order, each with the
offset of its value, whatever the slack word and the bytes that follow. -/
theorem parse_write (slack : UInt32) (es : List Pair) (trailing : Bytes)
    (hes : ∀ e ∈ es, e.1.length < 2 ^ 16 ∧ e.2.length < 2 ^ 32)
    (hsize : (write slack es).length < 2 ^ 32) :
    ∃ b, parse (write slack es ++ trailing) = .ok b ∧
      b.entries.map (fun e => (e.key, e.value)) = es ∧
      (∀ e ∈ b.entries,
        getRange (write slack es ++ trailing) e.valueOffset (e.valueOffset + e.value.length) =
          some e.value) ∧
      b.FirstWins := by
  have hstands : Stands (write slack es ++ trailing) 0 (write slack es) :=
    stands_zero.mpr (List.prefix_append _ _)
  obtain ⟨-, -, -, hbody⟩ := stands_write_iff.mp hstands
  refine ⟨⟨entriesAt 10 es⟩, parse_of_stands hes hsize hstands, entriesAt_pairs 10 es, ?_,
    firstWins _⟩
  intro e he
  obtain ⟨hvalue, hend⟩ := entriesAt_stands hbody e he
  apply getRange_of_stands hvalue
  rw [List.length_append, write_length]
  omega

def repeatedKey : List Pair := [([], []), (leBytes32 10, [1, 2]), (leBytes32 10, [])]

theorem repeatedKey_parse_write :
    ∃ b, parse (write 7 repeatedKey ++ [9]) = .ok b ∧
      b.entries.map (fun e => (e.key, e.value)) = repeatedKey := by
  obtain ⟨b, hparse, hpairs, -⟩ := parse_write 7 repeatedKey [9] (by decide) (by decide)
  exact ⟨b, hparse, hpairs⟩

/-! What is accepted. The declared total is met by the walk over the length
fields, or the container is not the one its entries encode. -/

section Accepted
variable {data : Bytes}

def declaredTotal (data : Bytes) : ℕ := leValue ((data.drop 2).take 4)

def slackWord (data : Bytes) : UInt32 := UInt32.ofNat (leValue ((data.drop 6).take 4))

/-- Where the length fields at `pos` put the next entry. -/
def nextEntry (data : Bytes) (pos : ℕ) : ℕ :=
  pos + 6 + leValue ((data.drop pos).take 2) + leValue ((data.drop (pos + 2)).take 4)

/-- The entries are those of a container of the declared size, and the buffer
starts with that container. -/
structure WellFormed (data : Bytes) (b : Blob) : Prop where
  header : 10 ≤ declaredTotal data
  tiles : write (slackWord data) (b.entries.map fun e => (e.key, e.value)) =
    data.take (declaredTotal data)
  inside : ∀ e ∈ b.entries, e.valueOffset + e.value.length ≤ declaredTotal data

theorem leValue_of_stands {pos width v : ℕ} (h : Stands data pos (leBytes width v))
    (hv : v < 256 ^ width) : leValue ((data.drop pos).take width) = v := by
  have htake := h.take_eq
  rw [leBytes_length] at htake
  rw [htake, leValue_leBytes, Nat.mod_eq_of_lt hv]

theorem nextEntry_of_stands {pos : ℕ} {e : Pair} (he : Fits e)
    (h : Stands data pos (writeEntry e)) : nextEntry data pos = pos + (writeEntry e).length := by
  simp only [writeEntry, stands_append, leBytes_length] at h
  obtain ⟨⟨⟨hk, hv⟩, -⟩, -⟩ := h
  rw [nextEntry, leValue_of_stands hk he.1, leValue_of_stands hv he.2, writeEntry_length]
  omega

theorem nextEntry_gt (data : Bytes) (pos : ℕ) : pos < nextEntry data pos := by
  unfold nextEntry
  omega

/-- The loop's entries are a walk: written one after the other from `pos`, each
begun before the total, the last one ending at or after it. -/
theorem parseFrom_sound {total fuel pos : ℕ} {es : List Entry} (hfuel : total ≤ pos + fuel)
    (h : parseFrom data total fuel pos = .ok es) :
    Stands data pos ((es.map Entry.pair).flatMap writeEntry) ∧
      es = entriesAt pos (es.map Entry.pair) ∧
      (nextEntry data)^[es.length] pos = pos + ((es.map Entry.pair).flatMap writeEntry).length ∧
      (∀ j < es.length, (nextEntry data)^[j] pos < total) ∧
      total ≤ (nextEntry data)^[es.length] pos := by
  induction fuel generalizing pos es with
  | zero =>
    cases h
    exact ⟨stands_nil, rfl, rfl, by simp, hfuel⟩
  | succ fuel ih =>
    rw [parseFrom] at h
    by_cases hpos : pos < total
    · rw [if_pos hpos] at h
      obtain ⟨⟨e, next⟩, he, h⟩ := bind_eq_ok.mp h
      obtain ⟨rest, hrest, h⟩ := bind_eq_ok.mp h
      cases h
      obtain ⟨hstands, hfits, hoffset, rfl⟩ := parseEntry_sound he
      have hlen := writeEntry_length e.pair
      have hnext := nextEntry_of_stands hfits hstands
      obtain ⟨hbytes, hentries, hend, hbelow, htotal⟩ := ih (by omega) hrest
      rw [← hnext] at hend hbelow htotal
      refine ⟨?_, ?_, ?_, ?_, ?_⟩
      · rw [List.map_cons, List.flatMap_cons, stands_append]
        exact ⟨hstands, hbytes⟩
      · have hentry : e = ⟨e.pair.1, e.pair.2, pos + 6 + e.pair.1.length⟩ := by
          change e = ⟨e.key, e.value, pos + 6 + e.key.length⟩
          rw [← hoffset]
        rw [List.map_cons, entriesAt, ← hentries, ← hentry]
      · rw [List.length_cons, Function.iterate_succ_apply, hend, hnext, List.map_cons,
          List.flatMap_cons, List.length_append, Nat.add_assoc]
      · intro j hj
        cases j with
        | zero => exact hpos
        | succ j =>
          rw [Function.iterate_succ_apply]
          exact hbelow j (by simpa using hj)
      · rw [List.length_cons, Function.iterate_succ_apply]
        exact htotal
    · rw [if_neg hpos] at h
      cases h
      exact ⟨stands_nil, rfl, rfl, by simp, Nat.not_lt.mp hpos⟩

theorem parse_sound {b : Blob} (h : parse data = .ok b) :
    Stands data 0 (leBytes 2 MAGIC_PLAIN.toNat) ∧
      Stands data 2 (leBytes 4 (declaredTotal data)) ∧ declaredTotal data ≤ data.length ∧
      parseFrom data (declaredTotal data) (declaredTotal data) 10 = .ok b.entries := by
  obtain ⟨magic, hmagic, h⟩ := bind_eq_ok.mp h
  split_ifs at h with hplain
  obtain ⟨total, htotal, h⟩ := bind_eq_ok.mp h
  dsimp only at h
  split_ifs at h with hsize
  obtain ⟨entries, hentries, h⟩ := bind_eq_ok.mp h
  cases h
  have htotal := u32At_sound htotal
  have hdeclared : declaredTotal data = total.toNat := leValue_of_stands htotal total.toNat_lt
  have hmagic := u16At_sound hmagic
  rw [not_not.mp hplain] at hmagic
  rw [hdeclared]
  exact ⟨hmagic, htotal, Nat.not_lt.mp hsize, hentries⟩

theorem walk_strictMono (data : Bytes) (pos : ℕ) :
    StrictMono fun n => (nextEntry data)^[n] pos := by
  refine strictMono_nat_of_lt_succ fun n => ?_
  rw [Function.iterate_succ_apply']
  exact nextEntry_gt data _

theorem wellFormed_iff_walk {b : Blob} (h : parse data = .ok b) :
    WellFormed data b ↔ ∃ n, (nextEntry data)^[n] 10 = declaredTotal data := by
  obtain ⟨hmagic, htotal, hle, hloop⟩ := parse_sound h
  obtain ⟨hbytes, hentries, hend, hbelow, hreach⟩ := parseFrom_sound (by omega) hloop
  have hpairs : (b.entries.map fun e => (e.key, e.value)) = b.entries.map Entry.pair := rfl
  constructor
  · intro hw
    -- The written container is as long as the walk, and as the declared total.
    have hlen := congrArg List.length hw.tiles
    rw [hpairs, write_length, List.length_take, Nat.min_eq_left hle] at hlen
    exact ⟨b.entries.length, by rw [hend, hlen]⟩
  · rintro ⟨n, hn⟩
    have hmono := walk_strictMono data 10
    have hn' : b.entries.length ≤ n := by
      by_contra hlt
      have hbefore := hbelow n (Nat.lt_of_not_le hlt)
      omega
    have hexact : (nextEntry data)^[b.entries.length] 10 = declaredTotal data := by
      apply Nat.le_antisymm _ hreach
      rw [← hn]
      exact hmono.monotone hn'
    rw [hexact] at hend
    have hheader : 10 ≤ declaredTotal data := by omega
    have hslackEnd : 6 + 4 ≤ data.length := by omega
    obtain ⟨hslack, hslackLt⟩ := stands_leValue hslackEnd
    have hstands : Stands data 0 (write (slackWord data) (b.entries.map Entry.pair)) := by
      rw [stands_write_iff, ← hend]
      refine ⟨hmagic, htotal, ?_, hbytes⟩
      rw [slackWord, word_ofNat hslackLt]
      exact hslack
    refine ⟨hheader, ?_, ?_⟩
    · have htake := hstands.take_eq
      rw [write_length, ← hend, List.drop_zero] at htake
      rw [hpairs, htake]
    · intro e he
      rw [hentries] at he
      obtain ⟨-, hinside⟩ := entriesAt_stands hbytes e he
      omega

theorem oneEntry_wellFormed :
    ∃ b, parse (write 0 [([], [5])]) = .ok b ∧ WellFormed (write 0 [([], [5])]) b := by
  have hparse : parse (write 0 [([], [5])]) = .ok ⟨[⟨[], [5], 16⟩]⟩ := by decide
  exact ⟨_, hparse, (wellFormed_iff_walk hparse).mpr ⟨1, by decide⟩⟩

def shortTotal : Bytes := [0x01, 0x50, 0, 0, 0, 0]

def straddledTotal : Bytes := [0x01, 0x50, 11, 0, 0, 0, 0, 0, 0, 0, 0, 0, 0, 0, 0, 0]

theorem accepted_not_wellFormed :
    (∃ b, parse shortTotal = .ok b ∧ ¬ WellFormed shortTotal b) ∧
      ∃ b, parse straddledTotal = .ok b ∧ ¬ WellFormed straddledTotal b := by
  have hshort : parse shortTotal = .ok ⟨[]⟩ := by decide
  have hstraddled : parse straddledTotal = .ok ⟨[⟨[], [], 16⟩]⟩ := by decide
  refine ⟨⟨_, hshort, fun hw => ?_⟩, ⟨_, hstraddled, fun hw => ?_⟩⟩
  · exact absurd hw.header (by decide)
  · exact absurd (hw.inside ⟨[], [], 16⟩ (by simp)) (by decide)

end Accepted

end Blob
end Steam2Fs
