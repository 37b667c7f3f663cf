import Steam2Fs.DateParse
import Steam2Fs.IndexOrder

/-!
# Dates in the order of their text

The links of `by-date/` are sorted as texts. Fields printed in a fixed width
compare as their numbers do, the calendar keeps the order of the day counts,
and so the text order of the stamps is the order of time, for the years that
have four digits. A blob without a date sorts after every dated one, since its
stamp starts with a letter.
-/

namespace Steam2Fs
open Text Calendar

/-! ### Texts that differ before they end -/

/-- The code points by which texts are compared; for ASCII these are the bytes. -/
def codes (s : Str) : List ℕ := s.map Char.toNat

/-- The first text is below the second whatever follows either. -/
def Precedes (u v : Str) : Prop := ∀ s t, codes (u ++ s) < codes (v ++ t)

theorem Precedes.cons {u v : Str} (h : Precedes u v) (c : Char) : Precedes (c :: u) (c :: v) :=
  fun s t => List.cons_lt_cons_iff.mpr (Or.inr ⟨rfl, h s t⟩)

theorem Precedes.append_left {u v : Str} (h : Precedes u v) (p : Str) :
    Precedes (p ++ u) (p ++ v) := by
  induction p with
  | nil => exact h
  | cons c cs ih => exact ih.cons c

theorem Precedes.append_right {u v : Str} (h : Precedes u v) (s t : Str) :
    Precedes (u ++ s) (v ++ t) := by
  intro s' t'
  rw [List.append_assoc, List.append_assoc]
  exact h (s ++ s') (t ++ t')

theorem precedes_of_head {c d : Char} (h : c.toNat < d.toNat) (u v : Str) :
    Precedes (c :: u) (d :: v) :=
  fun _ _ => List.cons_lt_cons_iff.mpr (Or.inl h)

theorem digitsFrom_ge {radix acc n : ℕ} {s : Str} (h : digitsFrom radix acc s = some n) :
    acc * radix ^ s.length ≤ n := by
  induction s generalizing acc with
  | nil =>
    cases h
    simp
  | cons c cs ih =>
    obtain ⟨d, -, h⟩ := Option.bind_eq_some_iff.mp h
    calc acc * radix ^ (c :: cs).length = acc * radix * radix ^ cs.length := by
          rw [List.length_cons, Nat.pow_succ']
          ring
      _ ≤ (acc * radix + d) * radix ^ cs.length :=
          Nat.mul_le_mul_right _ (Nat.le_add_right _ d)
      _ ≤ n := ih h

theorem digitVal_ten {c : Char} {d : ℕ} (h : digitVal 10 c = some d) : c.toNat = d + 48 := by
  obtain ⟨hv, hlt⟩ := Option.filter_eq_some_iff.mp h
  have hlt : d < 10 := by simpa using hlt
  split at hv
  next hc =>
    have hlo : 48 ≤ c.toNat := hc.1
    have hval : c.toNat - 48 = d := Option.some.inj hv
    omega
  next =>
    -- A letter's value is ten or more.
    split at hv
    next =>
      have hval : c.toNat - 97 + 10 = d := Option.some.inj hv
      omega
    next =>
      split at hv
      next =>
        have hval : c.toNat - 65 + 10 = d := Option.some.inj hv
        omega
      next => cases hv

theorem precedes_of_digits {acc m n : ℕ} {u v : Str} (hlen : u.length = v.length)
    (hu : digitsFrom 10 acc u = some m) (hv : digitsFrom 10 acc v = some n) (h : m < n) :
    Precedes u v := by
  induction u generalizing acc v with
  | nil =>
    obtain rfl := List.eq_nil_of_length_eq_zero hlen.symm
    rw [hu] at hv
    cases hv
    exact absurd h (Nat.lt_irrefl m)
  | cons c cs ih =>
    obtain ⟨d, ds, rfl⟩ := List.exists_cons_of_length_eq_add_one hlen.symm
    have hlen' : cs.length = ds.length := Nat.succ.inj hlen
    obtain ⟨a, ha, hcs⟩ := Option.bind_eq_some_iff.mp hu
    obtain ⟨b, hb, hds⟩ := Option.bind_eq_some_iff.mp hv
    have hc := digitVal_ten ha
    have hd := digitVal_ten hb
    rcases Nat.lt_trichotomy a b with hab | rfl | hab
    · exact precedes_of_head (by omega) cs ds
    · have hcd : c = d := Char.toNat_inj.mp (hc.trans hd.symm)
      subst hcd
      exact (ih hlen' hcs hds).cons c
    · -- A larger leading digit would make the first value the larger one.
      have hlow := digitsFrom_ge hcs
      have hhigh := digitsFrom_lt hds
      rw [← hlen'] at hhigh
      have hstep : (acc * 10 + b + 1) * 10 ^ cs.length ≤ (acc * 10 + a) * 10 ^ cs.length :=
        Nat.mul_le_mul_right _ (by omega)
      omega

theorem length_padded {width n : ℕ} (hw : 0 < width) (h : n < 10 ^ width) :
    (padZero width (decimal n)).length = width := by
  have hle : (decimal n).length ≤ width := Nat.toDigits_length 10 n width hw h
  unfold padZero
  rw [List.length_append, List.length_replicate]
  omega

theorem precedes_padded (width : ℕ) {m n : ℕ} (hw : 0 < width) (hn : n < 10 ^ width) (h : m < n) :
    Precedes (padZero width (decimal m)) (padZero width (decimal n)) := by
  have value : ∀ k, digitsFrom 10 0 (padZero width (decimal k)) = some k := by
    intro k
    rw [digitsFrom_padZero (by decide) (by decide)]
    exact digitsFrom_toDigits (by decide) (by decide) k
  refine precedes_of_digits ?_ (value m) (value n) h
  rw [length_padded hw (h.trans hn), length_padded hw hn]

/-! ### Stamps -/

theorem stampText_eq (y m d h mi sec : ℕ) : stampText y m d h mi sec =
    padZero 4 (decimal y) ++ '-' :: (padZero 2 (decimal m) ++ '-' :: (padZero 2 (decimal d) ++
      'T' :: (padZero 2 (decimal h) ++ '-' :: (padZero 2 (decimal mi) ++
        '-' :: padZero 2 (decimal sec))))) := by
  simp [stampText]

section Clock
variable {y m d y' m' d' a b : ℕ}

def dayStamp (y m d rem : ℕ) : Str :=
  stampText y m d (rem / 3600) (rem / 60 % 60) (rem % 60)

theorem dayStamp_precedes_of_clock (hb : b < 86400) (h : a < b) :
    Precedes (dayStamp y m d a) (dayStamp y m d b) := by
  unfold dayStamp
  rw [stampText_eq, stampText_eq]
  refine Precedes.append_left (Precedes.cons (Precedes.append_left (Precedes.cons
    (Precedes.append_left (Precedes.cons ?_ _) _) _) _) _) _
  rcases Nat.lt_trichotomy (a / 3600) (b / 3600) with hh | hh | hh
  · have hlt := precedes_padded 2 (by decide) (by omega) hh
    exact hlt.append_right _ _
  · rw [hh]
    refine Precedes.append_left (Precedes.cons ?_ _) _
    rcases Nat.lt_trichotomy (a / 60 % 60) (b / 60 % 60) with hm | hm | hm
    · have hlt := precedes_padded 2 (by decide) (by omega) hm
      exact hlt.append_right _ _
    · rw [hm]
      refine Precedes.append_left (Precedes.cons ?_ _) _
      exact precedes_padded 2 (by decide) (by omega) (by omega)
    · omega
  · omega

theorem dayStamp_precedes_of_date (hdate : IsDate y m d) (hdate' : IsDate y' m' d')
    (hy : y' ≤ 9999) (h : dayNumber y m d < dayNumber y' m' d') :
    Precedes (dayStamp y m d a) (dayStamp y' m' d' b) := by
  have hlt : (⟨y, m, d, hdate⟩ : Date) < ⟨y', m', d', hdate'⟩ :=
    Date.number_strictMono.lt_iff_lt.mp h
  have hm := hdate'.month_le
  have hd := hdate'.day_le_31
  unfold dayStamp
  rw [stampText_eq, stampText_eq]
  rcases Date.lt_iff.mp hlt with hyear | ⟨hyear, hmonth | ⟨hmonth, hday⟩⟩
  · have hyear : y < y' := Int.ofNat_lt.mp hyear
    have hlt := precedes_padded 4 (by decide) (by omega) hyear
    exact hlt.append_right _ _
  · have hyear : y = y' := Int.ofNat_inj.mp hyear
    subst hyear
    have hlt := precedes_padded 2 (m := m) (n := m') (by decide) (by omega) hmonth
    exact ((hlt.append_right _ _).cons '-').append_left _
  · have hyear : y = y' := Int.ofNat_inj.mp hyear
    have hmonth : m = m' := hmonth
    subst hyear hmonth
    have hlt := precedes_padded 2 (m := d) (n := d') (by decide) (by omega) hday
    exact (((((hlt.append_right _ _).cons '-').append_left _).cons '-')).append_left _

end Clock

/-- The last second of year 9999, plus one. -/
def year10000 : ℕ := 253402300800

theorem exists_dayStamp {secs : ℕ} (h : secs < year10000) :
    ∃ y m d : ℕ, IsDate y m d ∧ y ≤ 9999 ∧ dayNumber y m d = (secs / 86400 : ℕ) ∧
      formatStamp secs = dayStamp y m d (secs % 86400) := by
  unfold year10000 at h
  obtain ⟨y, m, d, -, hdate, hz⟩ := civilFromDays_date (secs / 86400 : ℕ)
  have h1970 : yearStart 1970 = 0 := by decide
  have h10000 : yearStart 10000 = 2932897 := by decide
  have hlo : 1970 ≤ y := by
    by_contra hlt
    have hlast := dayNumber_lt_year hdate
    have hmono : yearStart (y + 1) ≤ yearStart 1970 := yearStart_mono (by omega)
    omega
  have hhi : y ≤ 9999 := by
    by_contra hlt
    have hfirst := yearStart_le_dayNumber hdate
    have hmono : yearStart 10000 ≤ yearStart y := yearStart_mono (by omega)
    omega
  obtain ⟨n, rfl⟩ := Int.eq_ofNat_of_zero_le (show 0 ≤ y by omega)
  refine ⟨n, m, d, hdate, by omega, hz, ?_⟩
  have hstamp : formatStamp ((dayNumber n m d).toNat * 86400 + secs % 86400 / 3600 * 3600 +
      secs % 86400 / 60 % 60 * 60 + secs % 86400 % 60) = dayStamp n m d (secs % 86400) :=
    formatStamp_eq hdate (by omega) (by omega) (by omega) (by omega) (by omega)
  rw [hz, Int.toNat_natCast] at hstamp
  have hsum : secs / 86400 * 86400 + secs % 86400 / 3600 * 3600 +
      secs % 86400 / 60 % 60 * 60 + secs % 86400 % 60 = secs := by omega
  rw [hsum] at hstamp
  exact hstamp

theorem formatStamp_precedes {a b : ℕ} (hb : b < year10000) (h : a < b) :
    Precedes (formatStamp a) (formatStamp b) := by
  obtain ⟨y, m, d, hdate, -, hday, hstamp⟩ := exists_dayStamp (h.trans hb)
  obtain ⟨y', m', d', hdate', hy', hday', hstamp'⟩ := exists_dayStamp hb
  rw [hstamp, hstamp']
  rcases Nat.lt_or_ge (a / 86400) (b / 86400) with hlt | hge
  · exact dayStamp_precedes_of_date hdate hdate' hy' (by omega)
  · have hsame : a / 86400 = b / 86400 := by omega
    rw [hsame, ← hday'] at hday
    obtain ⟨hy, rfl, rfl⟩ := dayNumber_inj hdate hdate' hday
    obtain rfl := Int.ofNat_inj.mp hy
    exact dayStamp_precedes_of_clock (by omega) (by omega)

theorem formatStamp_precedes_unknown (secs : ℕ) :
    Precedes (formatStamp secs) "unknown".toList := by
  have hhead : ∃ c cs, formatStamp secs = c :: cs ∧ c.isDigit = true := by
    have hne : padZero 4 (decimal (civilFromDays (min (secs / 86400) (2 ^ 63 - 1))).1.toNat) ≠ [] :=
      fun he => Nat.toDigits_ne_nil (List.append_eq_nil_iff.mp he).2
    obtain ⟨c, cs, hc⟩ := List.exists_cons_of_ne_nil hne
    have hdigit : c.isDigit = true := isDigit_of_mem_padded (hc ▸ List.mem_cons_self)
    unfold formatStamp
    dsimp only
    rw [hc]
    exact ⟨c, _, rfl, hdigit⟩
  obtain ⟨c, cs, hstamp, hdigit⟩ := hhead
  rw [hstamp]
  refine precedes_of_head ?_ cs "nknown".toList
  obtain ⟨d, hd, hval⟩ := digitVal_of_isDigit hdigit
  have hcode := digitVal_ten hval
  change c.toNat < 117
  omega

theorem utf8_codes {s : Str} (h : ∀ c ∈ s, c.toNat < 0x80) :
    (utf8 s).map UInt8.toNat = codes s := by
  induction s with
  | nil => rfl
  | cons c cs ih =>
    have hc : c.val.toNat ≤ 0x7f := Nat.le_of_lt_succ (h c List.mem_cons_self)
    have henc : (String.utf8EncodeChar c).map UInt8.toNat = [c.toNat] := by
      simp only [String.utf8EncodeChar, hc, ↓reduceIte, List.map_cons, List.map_nil]
      have hbyte : (UInt8.ofNat c.val.toNat).toNat = c.val.toNat := by
        rw [UInt8.toNat_ofNat']
        omega
      exact congrArg (fun n => [n]) hbyte
    have ih := ih fun d hd => h d (List.mem_cons_of_mem c hd)
    unfold utf8 at ih ⊢
    rw [List.flatMap_cons, List.map_append, henc, ih]
    rfl

/-! ### The links of a depot -/

namespace Index
variable {idx : Index} {dep dep₀ : Depot}

def dateOf (idx : Index) (b : ℕ) : Option Instant := (idx.blobs[b]?).bind BlobEntry.date

theorem stampOf_eq (idx : Index) (b : ℕ) : idx.stampOf b =
    ((idx.dateOf b).map fun t => formatStamp t.secs).getD "unknown".toList := by
  unfold stampOf dateOf
  cases (idx.blobs[b]?).bind BlobEntry.date with
  | none => rfl
  | some t => rfl

/-- What the order of the links says about two blobs of a depot. -/
def Chronological (idx : Index) (b c : ℕ) : Prop :=
  (idx.dateOf b = none → idx.dateOf c = none) ∧
    ∀ t t', idx.dateOf b = some t → idx.dateOf c = some t' → t.secs ≤ t'.secs

theorem chronological_of_link_le (hdates : ∀ b t, idx.dateOf b = some t → t.secs < year10000)
    {bs : List ℕ} {b c : ℕ}
    (h : codes (idx.namesOf bs b).2 ≤ codes (idx.namesOf bs c).2) : idx.Chronological b c := by
  have hlink : ∀ x, (idx.namesOf bs x).2 = idx.stampOf x ++ '_' :: 'v' :: (idx.namesOf bs x).1 :=
    fun _ => rfl
  have hstop : ¬ Precedes (idx.stampOf c) (idx.stampOf b) := by
    intro hlt
    rw [hlink, hlink] at h
    exact absurd (hlt _ _) (not_lt.mpr h)
  rw [stampOf_eq, stampOf_eq] at hstop
  refine ⟨fun hb => ?_, fun t t' hb hc => ?_⟩
  · cases hc : idx.dateOf c with
    | none => rfl
    | some t =>
      rw [hb, hc] at hstop
      exact absurd (formatStamp_precedes_unknown t.secs) hstop
  · rw [hb, hc] at hstop
    by_contra hlt
    exact hstop (formatStamp_precedes (hdates b t hb) (Nat.not_le.mp hlt))

theorem dateOrder_pairwise (h : dep = idx.finishDepot dep₀) :
    dep.dateOrder.Pairwise fun b c =>
      codes (idx.namesOf dep.blobs b).2 ≤ codes (idx.namesOf dep.blobs c).2 := by
  have hsorted : (linkOrder dep.names dep.blobs.length).Pairwise fun i j =>
      codes (((dep.names[i]?).map Prod.snd).getD []) ≤
        codes (((dep.names[j]?).map Prod.snd).getD []) :=
    List.pairwise_insertionSort _ _
  rw [dateOrder_eq h, List.pairwise_filterMap]
  refine hsorted.imp fun {i j} hij b hb c hc => ?_
  rw [names_eq h, List.getElem?_map, List.getElem?_map, hb, hc] at hij
  exact hij

theorem filterMap_getElem?_range {α : Type} (l : List α) :
    (List.range l.length).filterMap (l[·]?) = l := by
  induction l using List.reverseRecOn with
  | nil => rfl
  | append_singleton l a ih =>
    rw [List.length_append, List.length_singleton, List.range_succ, List.filterMap_append]
    have hfirst : (List.range l.length).filterMap ((l ++ [a])[·]?) = l := by
      refine Eq.trans (List.filterMap_congr fun i hi => ?_) ih
      exact List.getElem?_append_left (List.mem_range.mp hi)
    rw [hfirst]
    simp

theorem dateOrder_perm (h : dep = idx.finishDepot dep₀) : dep.dateOrder.Perm dep.blobs := by
  have hperm : (linkOrder dep.names dep.blobs.length).Perm (List.range dep.blobs.length) :=
    List.perm_insertionSort _ _
  have horder := hperm.filterMap (dep.blobs[·]?)
  rw [filterMap_getElem?_range] at horder
  rw [dateOrder_eq h]
  exact horder

theorem dateLinks_ids (dep : Depot) : dep.dateLinks.map Prod.snd = dep.dateOrder := by
  unfold Depot.dateLinks
  rw [List.map_map]
  exact List.map_id dep.dateOrder

theorem load_dateOf {dates : Str → Option Instant} {bs ds : List DirEntry} {b : ℕ} {t : Instant}
    (h : (load dates bs ds).dateOf b = some t) : ∃ name, dates name = some t := by
  obtain ⟨e, he, hdate⟩ := Option.bind_eq_some_iff.mp h
  have hmem := List.mem_of_getElem? he
  rw [(load_blobs bs ds).1] at hmem
  obtain ⟨x, -, hx⟩ := List.mem_filterMap.mp hmem
  obtain ⟨r, -, rfl⟩ := Option.map_eq_some_iff.mp hx
  exact ⟨x.name, hdate⟩

/-- The links of a depot are its blobs in the order of their dates, the undated
ones last, as long as the years have four digits; the stamps themselves are then
strictly increasing bytewise. -/
theorem dateLinks_chronological {dates : Str → Option Instant}
    (hdates : ∀ name t, dates name = some t → t.secs < year10000) (bs ds : List DirEntry) :
    (∀ d dep, (load dates bs ds).depot d = some dep →
      (dep.dateLinks.map Prod.snd).Nodup ∧
      (∀ b, b ∈ dep.dateLinks.map Prod.snd ↔
        ∃ e, (load dates bs ds).blobs[b]? = some e ∧ e.depot = d) ∧
      (dep.dateLinks.map Prod.snd).Pairwise (load dates bs ds).Chronological) ∧
    ∀ a b, a < b → b < year10000 →
      (utf8 (formatStamp a)).map UInt8.toNat < (utf8 (formatStamp b)).map UInt8.toNat := by
  have hload := load_loaded dates bs ds
  refine ⟨fun d dep hdep => ?_, fun a b hab hb => ?_⟩
  · have hmem := hload.depot_iff.mp hdep
    obtain ⟨dep₀, hfin⟩ := hload.finished _ hmem
    have hperm := dateOrder_perm hfin
    rw [dateLinks_ids]
    refine ⟨hperm.nodup_iff.mpr (hload.nodup _ hmem), fun b => ?_, ?_⟩
    · rw [hperm.mem_iff]
      refine ⟨fun hb => hload.filed _ hmem b hb, fun he => ?_⟩
      obtain ⟨e, he, rfl⟩ := he
      obtain ⟨x, hx, hkey, hb⟩ := hload.holds b e he
      have hsame : (load dates bs ds).depot e.depot = some x.2 :=
        hload.depot_iff.mpr (by rw [← hkey]; exact hx)
      rw [hdep] at hsame
      cases hsame
      exact hb
    · refine (dateOrder_pairwise hfin).imp fun hle => chronological_of_link_le ?_ hle
      intro b t ht
      obtain ⟨name, hname⟩ := load_dateOf ht
      exact hdates name t hname
  · rw [utf8_codes (formatStamp_ascii a), utf8_codes (formatStamp_ascii b)]
    have hlt := formatStamp_precedes hb hab [] []
    rw [List.append_nil, List.append_nil] at hlt
    exact hlt

theorem dateLinks_chronological_two :
    let dates : Str → Option Instant := fun name =>
      [("1_0_0000000a_x.blob".toList, (⟨86400, 0⟩ : Instant))].lookup name
    let bs : List DirEntry := [⟨"1_1_0000000b_x.blob".toList, 0, false⟩,
      ⟨"1_0_0000000a_x.blob".toList, 0, false⟩]
    ∃ dep, (load dates bs []).depot 1 = some dep ∧
      (dep.dateLinks.map Prod.snd).Pairwise (load dates bs []).Chronological := by
  intro dates bs
  have hdates : ∀ name t, dates name = some t → t.secs < year10000 := by
    intro name t ht
    have hmem := mem_of_lookup ht
    rw [List.mem_singleton] at hmem
    rw [(Prod.mk.inj hmem).2]
    decide
  have hsome : ((load dates bs []).depot 1).isSome = true := by decide +kernel
  obtain ⟨dep, hdep⟩ := Option.isSome_iff_exists.mp hsome
  exact ⟨dep, hdep, ((dateLinks_chronological hdates bs []).1 1 dep hdep).2.2⟩

end Index

end Steam2Fs
