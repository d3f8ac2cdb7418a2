import CurveStudy.Double
import CurveStudy.Proofs.Entry.Spacing

/-!
# Erasing what a key inserted

The last unit of a text is found from the text alone, as the longest of twenty-six names that the
text ends with.  A key never puts its text right behind a letter, so what is found behind it is its
own text, and one step back takes away what the key has added.  The key that erases backwards takes
a whole unit away if only spaces stand behind it; with any other blank there, it takes that blank.

* `Entry.Trailing`   the longest unit at the end of a text;
* `Entry.trailingUnit?_append`   a text behind something that does not end with a letter;
* `Entry.eraseUnit_insert`, `Session.entry_eraseUnit_run`   one step back for each key;
* `Session.entry_backspace`   the key that erases backwards.
-/

namespace CurveStudy

namespace Entry

/-! ## the longest unit -/

theorem longest?_eq_none {ts : List Text} (h : longest? ts = none) : ts = [] := by
  cases ts with
  | nil => rfl
  | cons t ts =>
    rw [longest?] at h
    split at h
    · cases h
    · split at h <;> cases h

theorem longest?_eq_some {ts : List Text} {u : Text} (h : longest? ts = some u) :
    u ∈ ts ∧ ∀ v ∈ ts, v.length ≤ u.length := by
  induction ts generalizing u with
  | nil => cases h
  | cons t ts ih =>
    rw [longest?] at h
    split at h
    · rename_i hn
      cases h
      rw [longest?_eq_none hn]
      simp
    · rename_i w hw
      obtain ⟨hmem, hle⟩ := ih hw
      split at h
      · rename_i hlt
        cases h
        refine ⟨List.mem_cons_of_mem t hmem, List.forall_mem_cons.2 ⟨Nat.le_of_lt hlt, hle⟩⟩
      · rename_i hge
        cases h
        refine ⟨List.mem_cons_self .., List.forall_mem_cons.2 ⟨Nat.le_refl _, fun v hv => ?_⟩⟩
        exact Nat.le_trans (hle v hv) (Nat.le_of_not_lt hge)

/-- the longest unit at the end of a text -/
structure Trailing (u t : Text) : Prop where
  mem : u ∈ units
  isSuffix : u <:+ t
  longest : ∀ v ∈ units, v <:+ t → v.length ≤ u.length

theorem trailing_of_trailingUnit? {t u : Text} (h : trailingUnit? t = some u) : Trailing u t := by
  obtain ⟨hmem, hle⟩ := longest?_eq_some h
  obtain ⟨hu, hs⟩ := List.mem_filter.1 hmem
  exact ⟨hu, List.isSuffixOf_iff_suffix.1 hs, fun v hv hvt =>
    hle v (List.mem_filter.2 ⟨hv, List.isSuffixOf_iff_suffix.2 hvt⟩)⟩

theorem trailingUnit?_eq_none {t : Text} : trailingUnit? t = none ↔ ∀ u ∈ units, ¬u <:+ t := by
  constructor
  · intro h u hu hs
    have hnil := List.filter_eq_nil_iff.1 (longest?_eq_none h) u hu
    exact hnil (List.isSuffixOf_iff_suffix.2 hs)
  · intro h
    have hnil : units.filter (fun u => u.isSuffixOf t) = [] :=
      List.filter_eq_nil_iff.2 fun u hu hs => h u hu (List.isSuffixOf_iff_suffix.1 hs)
    rw [trailingUnit?, hnil]
    rfl

/-- there is one longest unit -/
theorem Trailing.trailingUnit?_eq {t u : Text} (h : Trailing u t) : trailingUnit? t = some u := by
  cases hx : trailingUnit? t with
  | none => exact absurd h.isSuffix (trailingUnit?_eq_none.1 hx u h.mem)
  | some v =>
    have hv := trailing_of_trailingUnit? hx
    have hl := Nat.le_antisymm (h.longest v hv.mem hv.isSuffix) (hv.longest u h.mem h.isSuffix)
    have hs := List.suffix_of_suffix_length_le hv.isSuffix h.isSuffix (Nat.le_of_eq hl)
    rw [hs.eq_of_length hl]

/-! ## where no unit ends -/

theorem isAlpha_of_mem_dropLast {u : Text} (hu : u ∈ units) : ∀ c ∈ u.dropLast, c.isAlpha := by
  have h : units.all fun u => u.dropLast.all Char.isAlpha := by decide
  exact fun c hc => List.all_eq_true.1 (List.all_eq_true.1 h u hu) c hc

/-- the last characters of the units -/
theorem getLast?_of_mem_units {u : Text} (hu : u ∈ units) :
    u.getLast? = some '(' ∨ u.getLast? = some 'i' := by
  have h : units.all fun u => u.getLast? == some '(' || u.getLast? == some 'i' := by decide
  simpa using List.all_eq_true.1 h u hu

theorem trailingUnit?_concat {t : Text} {c : Char} (hb : c ≠ '(') (hi : c ≠ 'i') :
    trailingUnit? (t ++ [c]) = none := by
  refine trailingUnit?_eq_none.2 fun u hu hs => ?_
  rcases List.suffix_concat_iff.1 hs with rfl | ⟨v, rfl, -⟩
  · rcases getLast?_of_mem_units hu with h | h <;> cases h
  · rcases getLast?_of_mem_units hu with h | h
    · exact hb (by simpa using h)
    · exact hi (by simpa using h)

/-- behind something that does not end with a letter, a text ends with the units that it ends with
alone: all characters of a unit but the last are letters -/
theorem trailingUnit?_append {t n : Text} (hn : n ≠ [])
    (ht : ∀ d ∈ t.getLast?, d.isAlpha = false) : trailingUnit? (t ++ n) = trailingUnit? n := by
  have hiff : ∀ u ∈ units, u <:+ t ++ n ↔ u <:+ n := by
    refine fun u hu => ⟨fun hs => ?_, fun hs => hs.trans (List.suffix_append t n)⟩
    rcases List.suffix_or_suffix_of_suffix hs (List.suffix_append t n) with h | ⟨v, rfl⟩
    · exact h
    · rcases List.eq_nil_or_concat v with rfl | ⟨v, d, rfl⟩
      · exact List.suffix_rfl
      · -- the unit reaches into `t`, whose last character is then a letter
        obtain ⟨r, hr⟩ := hs
        have hr : t = r ++ v.concat d := by
          rw [← List.append_assoc] at hr
          exact (List.append_cancel_right hr).symm
        have hd : d.isAlpha = true := isAlpha_of_mem_dropLast hu d (by
          rw [List.dropLast_append_of_ne_nil hn]
          simp)
        rw [ht d (by rw [hr]; simp)] at hd
        cases hd
  have hf : units.filter (fun u => u.isSuffixOf (t ++ n))
      = units.filter fun u => u.isSuffixOf n := by
    refine List.filter_congr fun u hu => ?_
    rw [Bool.eq_iff_iff, List.isSuffixOf_iff_suffix, List.isSuffixOf_iff_suffix]
    exact hiff u hu
  rw [trailingUnit?, hf]
  rfl

/-! ## one step back -/

theorem dropUnit_of_trailing {r u : Text} (h : Trailing u (r ++ u)) : dropUnit (r ++ u) = r := by
  rw [dropUnit, h.trailingUnit?_eq]
  simp

theorem dropUnit_of_eq_none {t : Text} (h : trailingUnit? t = none) : dropUnit t = t.dropLast := by
  rw [dropUnit, h]

theorem trailing_self {u : Text} (h : u ∈ units) : Trailing u u where
  mem := h
  isSuffix := List.suffix_rfl
  longest _ _ hv := hv.length_le

theorem text_mem_units (k : Key) : k.text ∈ units ∨ ∃ c, k.text = [c] := by
  cases k with
  | trig k => exact .inl (List.mem_append_left _ (List.mem_map_of_mem (Trig.mem_all k)))
  | sqrt | pi => exact .inl (by decide)
  | opening | closing | plus | minus | times | slash | caret | x => exact .inr ⟨_, rfl⟩

theorem two_le_length {u : Text} (h : u ∈ units) : 2 ≤ u.length := by
  have hall : units.all fun u => 2 ≤ u.length := by decide
  simpa using List.all_eq_true.1 hall u h

/-- the text of a key is its own last unit -/
@[simp] theorem dropUnit_text (k : Key) : dropUnit k.text = [] := by
  rcases text_mem_units k with hu | ⟨c, hc⟩
  · exact dropUnit_of_trailing (r := []) (trailing_self hu)
  · rw [hc]
    refine dropUnit_of_eq_none (trailingUnit?_eq_none.2 fun u hu hs => ?_)
    exact absurd (two_le_length hu) (Nat.not_le_of_gt (Nat.lt_succ_of_le hs.length_le))

theorem dropUnit_append {t n : Text} (hn : n ≠ [])
    (ht : ∀ d ∈ t.getLast?, d.isAlpha = false) : dropUnit (t ++ n) = t ++ dropUnit n := by
  rw [dropUnit, dropUnit, trailingUnit?_append hn ht]
  cases h : trailingUnit? n with
  | none => exact List.dropLast_append_of_ne_nil hn
  | some u =>
    have hle : u.length ≤ n.length := (trailing_of_trailingUnit? h).isSuffix.length_le
    have hlen : (t ++ n).length - u.length = t.length + (n.length - u.length) := by
      rw [List.length_append, Nat.add_sub_assoc hle]
    show (t ++ n).take ((t ++ n).length - u.length) = t ++ n.take (n.length - u.length)
    rw [hlen, List.take_length_add_append]

/-- behind what a key puts it after, the text of the key is the last unit -/
theorem dropUnit_append_text {k : Key} {t : Text} (ht : ∀ d ∈ t.getLast?, k.standsBehind d) :
    dropUnit (t ++ k.text) = t := by
  by_cases hk : k = .closing
  · have h : trailingUnit? (t ++ [')']) = none := trailingUnit?_concat (by decide) (by decide)
    rw [hk]
    exact (dropUnit_of_eq_none h).trans List.dropLast_concat
  · rw [dropUnit_append k.text_ne_nil fun d hd => k.isAlpha_of_standsBehind hk (ht d hd),
      dropUnit_text, List.append_nil]

/-- what a key inserts does not end with a space -/
theorem getLast?_append_text (k : Key) (t : Text) :
    ∀ c ∈ (t ++ k.text).getLast?, (c == ' ') = false := by
  rw [List.getLast?_append_of_ne_nil t k.text_ne_nil]
  cases k with
  | trig k => simp [Key.text]
  | opening | closing | plus | minus | times | slash | caret | x | pi | sqrt =>
    simp [Key.text, Key.label]

@[simp] theorem trimSpaces_insert (k : Key) (t : Text) :
    (k.insert t).trimSpaces = k.before t ++ k.text := by
  rw [k.insert_eq, ← List.append_assoc]
  exact (Text.trimEndWith_append k.after_eq_space _).trans
    (Text.trimEndWith_eq_self (getLast?_append_text k _))

/-- one step back takes away what a key has added, and the spaces before it -/
@[simp] theorem eraseUnit_insert (k : Key) (t : Text) : eraseUnit (k.insert t) = t.trimSpaces := by
  rw [eraseUnit, trimSpaces_insert, dropUnit_append_text (k.standsBehind_before t),
    k.trimSpaces_before]

theorem eraseUnit_trimSpaces (t : Text) : eraseUnit t.trimSpaces = eraseUnit t := by
  rw [eraseUnit, t.trimSpaces_trimSpaces, eraseUnit]

@[simp] theorem trimSpaces_eraseUnit (t : Text) : (eraseUnit t).trimSpaces = eraseUnit t :=
  Text.trimSpaces_trimSpaces _

/-- as many steps back as keys take all away that the keys have added -/
theorem trimSpaces_eraseUnit_insertAll (ks : List Key) (t : Text) :
    (eraseUnit^[ks.length] (Key.insertAll ks t)).trimSpaces = t.trimSpaces := by
  induction ks generalizing t with
  | nil => rfl
  | cons k ks ih =>
    -- what the first key has added goes with the last step
    have hk := ih (k.insert t)
    rw [List.length_cons, Function.iterate_succ_apply', Key.insertAll_cons, trimSpaces_eraseUnit,
      ← eraseUnit_trimSpaces, hk, eraseUnit_trimSpaces, eraseUnit_insert]

/-- without a key nothing is erased, spaces included -/
theorem eraseUnit_iterate_insertAll (ks : List Key) (t : Text) :
    eraseUnit^[ks.length] (Key.insertAll ks t) = if ks = [] then t else t.trimSpaces := by
  cases ks with
  | nil => rfl
  | cons k ks =>
    have h := trimSpaces_eraseUnit_insertAll (k :: ks) t
    rw [List.length_cons, Function.iterate_succ_apply', trimSpaces_eraseUnit] at h
    rw [List.length_cons, Function.iterate_succ_apply', h, if_neg (List.cons_ne_nil k ks)]

/-! ## erasing by hand -/

theorem completeErase_of_ne {before now : Text} (h : now ≠ before.dropLast) :
    completeErase before now = now :=
  if_neg fun hc => h hc.1

theorem erase_of_eq_none {t : Text} (h : trailingUnit? t.trimEnd = none) : erase t = t.dropLast :=
  if_neg fun hc => by
    rw [h] at hc
    exact Bool.false_ne_true hc.2

theorem erase_of_trailing {t u : Text} (h : Trailing u t.trimEnd) : erase t = eraseUnit t :=
  if_pos ⟨rfl, by rw [h.trailingUnit?_eq]; rfl⟩

/-- with nothing but spaces at the end, the unit is found again when it is erased -/
theorem eraseUnit_of_trailing {t r u : Text} (ht : t.trimEnd = t.trimSpaces)
    (hr : t.trimEnd = r ++ u) (h : Trailing u t.trimEnd) : eraseUnit t = r.trimSpaces := by
  rw [hr] at h
  rw [eraseUnit, ← ht, hr, dropUnit_of_trailing h]

/-- another blank at the end is in the way of the unit, and goes in its place -/
theorem eraseUnit_of_trimEnd_ne {t : Text} (ht : t.trimEnd ≠ t.trimSpaces) :
    eraseUnit t = Text.trimSpaces t.trimSpaces.dropLast ∧ t.trimEnd <+: eraseUnit t := by
  obtain ⟨w, hw, hs⟩ := Text.exists_trimEndWith isBlank t.trimSpaces
  have hs : t.trimSpaces = t.trimEnd ++ w := by rwa [← t.trimEnd_trimSpaces]
  rcases List.eq_nil_or_concat w with rfl | ⟨v, c, rfl⟩
  · exact absurd (hs.trans (List.append_nil _)).symm ht
  · have hc : isBlank c := hw c (by simp)
    rw [List.concat_eq_append, ← List.append_assoc] at hs
    have hnone : trailingUnit? t.trimSpaces = none :=
      hs ▸ trailingUnit?_concat (by rintro rfl; cases hc) (by rintro rfl; cases hc)
    have he : eraseUnit t = Text.trimSpaces t.trimSpaces.dropLast := by
      rw [eraseUnit, dropUnit_of_eq_none hnone]
    refine ⟨he, ?_⟩
    rw [he, hs, List.dropLast_concat]
    exact Text.trimEnd_prefix_trimSpaces_append (fun d hd => hw d (by simp [hd])) t

end Entry

namespace Session
variable {α : Type}

theorem entry_iterate_eraseUnit (n : Nat) (s : Session α) :
    (eraseUnit^[n] s).entry = Entry.eraseUnit^[n] s.entry :=
  Function.Semiconj.iterate_right (f := Session.entry) (fun _ => rfl) n s

variable [Number α]

/-- One step back after a button that inserts leaves the entry as it was, but for the spaces at its
end, and so do as many steps as buttons were pressed. -/
theorem entry_eraseUnit_presses (s : Session α) :
    (∀ k : Key, (s.press (.insert k)).eraseUnit.entry = s.entry.trimSpaces)
    ∧ ∀ ks : List Key, (eraseUnit^[ks.length] (s.run (presses ks))).entry
        = if ks = [] then s.entry else s.entry.trimSpaces := by
  refine ⟨fun k => Entry.eraseUnit_insert k s.entry, fun ks => ?_⟩
  rw [entry_iterate_eraseUnit, entry_run_presses, Entry.eraseUnit_iterate_insertAll]

/-- The key that erases backwards takes the last unit and the spaces before it away exactly if
nothing but spaces stands behind it; otherwise it takes the spaces at the end away, one other blank
and the spaces before that.  Without a unit there it takes one character, and an entry that lost
another character than its last stays as it is. -/
theorem entry_backspace (s : Session α) :
    (∀ r u : Text, s.entry.trimEnd = r ++ u → Entry.Trailing u s.entry.trimEnd →
      ((s.step .backspace).entry = r.trimSpaces ↔ s.entry.trimEnd = s.entry.trimSpaces)
      ∧ (s.entry.trimEnd ≠ s.entry.trimSpaces →
        (s.step .backspace).entry = Text.trimSpaces s.entry.trimSpaces.dropLast))
    ∧ ((∀ u ∈ Entry.units, ¬u <:+ s.entry.trimEnd) →
      (s.step .backspace).entry = s.entry.dropLast)
    ∧ ∀ before : Text, s.entry ≠ before.dropLast → (s.completeErase before).entry = s.entry := by
  refine ⟨fun r u hr hu => ?_, fun h => ?_, fun before h => Entry.completeErase_of_ne h⟩
  · have he : (s.step .backspace).entry = Entry.eraseUnit s.entry := Entry.erase_of_trailing hu
    rw [he]
    refine ⟨⟨fun hx => ?_, fun ht => Entry.eraseUnit_of_trailing ht hr hu⟩,
      fun ht => (Entry.eraseUnit_of_trimEnd_ne ht).1⟩
    by_contra ht
    -- the unit is still there, so what is left is longer than `r`
    have hp := (Entry.eraseUnit_of_trimEnd_ne ht).2.length_le
    rw [hx, hr, List.length_append] at hp
    have hle : r.trimSpaces.length ≤ r.length := (List.rdropWhile_prefix _ r).length_le
    have h2 := Entry.two_le_length hu.mem
    omega
  · exact Entry.erase_of_eq_none (Entry.trailingUnit?_eq_none.2 h)

/-- behind `x arcsinh(` and a space, where `sinh(` is a unit as well -/
theorem entry_backspace_arcsinh :
    let s : Session Float := step initial (.edit "x arcsinh( ".toList)
    s.entry.trimEnd = "x ".toList ++ "arcsinh(".toList
    ∧ Entry.Trailing "arcsinh(".toList s.entry.trimEnd
    ∧ (s.step .backspace).entry = "x".toList := by
  intro s
  have hr : s.entry.trimEnd = "x ".toList ++ "arcsinh(".toList := by decide +kernel
  have hu : Entry.Trailing "arcsinh(".toList s.entry.trimEnd :=
    Entry.trailing_of_trailingUnit? (by decide +kernel)
  exact ⟨hr, hu, ((entry_backspace s).1 _ _ hr hu).1.2 (by decide +kernel)⟩

/-- Behind a space that does not break, the unit stays. -/
theorem not_entry_backspace_eq_trimSpaces : ¬ ∀ (s : Session Float) (r u : Text),
    s.entry.trimEnd = r ++ u → Entry.Trailing u s.entry.trimEnd →
      (s.step .backspace).entry = r.trimSpaces := by
  intro h
  have hp : Entry.Trailing "pi".toList "pi".toList := Entry.trailing_self (by decide)
  exact absurd (h (step initial (.edit "pi\u00a0".toList)) [] "pi".toList (by decide +kernel) hp)
    (by decide +kernel)

end Session

end CurveStudy
