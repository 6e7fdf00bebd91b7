import Overlay.Key.Parser

/-!
# The grammar of keys

A key is spelled as a marker in front of its base key, with a hash in front of it if its array is
spread. The escape stands in the place of a marker, and what is spelled in none of these ways is a
plain key. The markers share their first characters, runs of chevrons have no end, and the name of a
custom operator is one only while the table has it; still no text is spelled in two ways, and reading
a key finds the one way in which it is spelled.
-/

namespace Overlay

/-- The hash of a key, or of the name of its operator, if its array is spread. -/
def hashMark (spread : Bool) : List Char := if spread then ['#'] else []

@[simp] theorem hashMark_true : hashMark true = ['#'] := rfl

@[simp] theorem hashMark_false : hashMark false = [] := rfl

/-- A count makes a level, cut down to the greatest one. -/
theorem levelOfCount_eq_iff {count : Nat} {level : UInt32} :
    levelOfCount count = level ↔ level.toNat = min count 4294967295 := by
  have hlt : min count (UInt32.size - 1) < UInt32.size := by
    have hsize : UInt32.size = 4294967296 := rfl
    omega
  rw [← UInt32.toNat_inj, levelOfCount, UInt32.toNat_ofNat_of_lt' hlt]
  exact eq_comm

namespace Marker

variable {table : OperatorTable}

/-- The spellings of markers in front of what follows them. -/
inductive Spells (table : OperatorTable) : Marker → List Char → Prop
  | add {rest : List Char} (h : rest.head? ≠ some '>') :
      Spells table (simple .add rest) ('+' :: rest)
  | multiply {rest : List Char} (h : rest.head? ≠ some '>') :
      Spells table (simple .multiply rest) ('*' :: rest)
  | prepend {rest : List Char} : Spells table (simple .prepend rest) ('<' :: '+' :: rest)
  | append {rest : List Char} : Spells table (simple .append rest) ('+' :: '>' :: rest)
  | below {count : Nat} {level : UInt32} {rest : List Char} (hcount : 1 ≤ count)
      (hlevel : level.toNat = min count 4294967295) :
      Spells table (simple (.merge .below level) rest) (List.replicate count '<' ++ '*' :: rest)
  | above {count : Nat} {level : UInt32} {rest : List Char} (hcount : 1 ≤ count)
      (hlevel : level.toNat = min count 4294967295) (h : rest.head? ≠ some '>') :
      Spells table (simple (.merge .above level) rest) ('*' :: (List.replicate count '>' ++ rest))
  | custom {name : String} {rest : List Char} (spread : Bool) (h : table.contains name = true) :
      Spells table ⟨.custom name, spread, rest⟩
        ('(' :: (hashMark spread ++ name.toList ++ ')' :: rest))

/-- A run is read whole when another character follows it. -/
theorem run_replicate (c : Char) (n : Nat) {s : List Char} (h : s.head? ≠ some c) :
    run c (List.replicate n c ++ s) = (n, s) := by
  have hall : ∀ a ∈ List.replicate n c, (a == c) = true := by
    intro a ha
    simp [List.eq_of_mem_replicate ha]
  have hstop : s.takeWhile (· == c) = [] ∧ s.dropWhile (· == c) = s := by
    cases s with
    | nil => exact ⟨rfl, rfl⟩
    | cons d s => simp_all
  rw [run, List.takeWhile_append_of_pos hall, List.dropWhile_append_of_pos hall, hstop.1, hstop.2]
  simp

/-- A run and what follows it make up the whole text. -/
theorem replicate_append_run (c : Char) (s : List Char) :
    List.replicate (run c s).1 c ++ (run c s).2 = s := by
  have hall : ∀ a ∈ s.takeWhile (· == c), a = c := by
    intro a ha
    simpa using List.all_eq_true.1 List.all_takeWhile a ha
  calc
    List.replicate (run c s).1 c ++ (run c s).2
        = s.takeWhile (· == c) ++ s.dropWhile (· == c) := by
          rw [List.eq_replicate_of_mem hall]
          simp [run]
    _ = s := List.takeWhile_append_dropWhile

/-- What follows a run does not start with its character. -/
theorem head?_run_ne (c : Char) (s : List Char) : (run c s).2.head? ≠ some c := by
  intro h
  have hnot := List.head?_dropWhile_not (· == c) s
  simp only [run] at h
  rw [h] at hnot
  simp at hnot

/-- Chevrons before a star are a merge below the value. -/
theorem below?_replicate (n : Nat) (base : List Char) :
    below? (List.replicate n '<' ++ '*' :: base) =
      some (simple (.merge .below (levelOfCount n)) base) := by
  rw [below?, run_replicate '<' n (by simp)]
  rfl

/-- Chevrons after a star are a merge above the value. -/
theorem afterStar_replicate {n : Nat} (hn : 1 ≤ n) {base : List Char} (h : base.head? ≠ some '>') :
    afterStar (List.replicate n '>' ++ base) =
      simple (.merge .above (levelOfCount n)) base := by
  obtain ⟨n, rfl⟩ : ∃ m, n = m + 1 := ⟨n - 1, by omega⟩
  rw [afterStar, run_replicate '>' (n + 1) h]
  rfl

/-- A star without chevrons is a product. -/
theorem afterStar_of_head? {base : List Char} (h : base.head? ≠ some '>') :
    afterStar base = simple .multiply base := by
  have hrun : run '>' base = (0, base) := run_replicate '>' 0 h
  rw [afterStar, hrun]
  rfl

/-- A plus sign that no chevron follows is a sum. -/
theorem afterPlus_of_head? {base : List Char} (h : base.head? ≠ some '>') :
    afterPlus base = simple .add base := by
  unfold afterPlus
  split
  · simp at h
  · rfl

/-- A name is read up to its closing parenthesis, with the hash in front of it. -/
theorem custom?_name {name : String} (h : table.contains name = true) (spread : Bool)
    (base : List Char) :
    custom? table (hashMark spread ++ name.toList ++ ')' :: base) =
      some ⟨.custom name, spread, base⟩ := by
  obtain ⟨-, -, hclose, hhash⟩ :=
    isOperatorName_iff.1 (OperatorTable.isOperatorName_of_contains h)
  have hall : ∀ c ∈ hashMark spread ++ name.toList, (c != ')') = true := by
    intro c hc
    rcases List.mem_append.1 hc with hc | hc
    · cases spread <;> simp_all
    · exact bne_iff_ne.2 fun heq => hclose (heq ▸ hc)
  rw [custom?, List.takeWhile_append_of_pos hall, List.dropWhile_append_of_pos hall]
  cases spread with
  | true => simp [h]
  | false =>
    cases hname : name.toList with
    | nil => simp_all
    | cons c cs =>
      have hc : c ≠ '#' := fun heq => hhash (by simp [hname, heq])
      have hback : String.ofList (c :: cs) = name := by rw [← hname, String.ofList_toList]
      simp only [hashMark, Bool.false_eq_true, if_false, List.nil_append, bne_self_eq_false,
        not_false_eq_true, List.takeWhile_cons_of_neg, List.dropWhile_cons_of_neg, List.append_nil]
      split
      · next heq => exact absurd (List.cons.inj heq).1 hc
      · simp [hback, h]

/-- A marker is read from each of its spellings. -/
theorem ofChars?_of_spells {m : Marker} {body : List Char} (h : m.Spells table body) :
    ofChars? table body = some m := by
  cases h with
  | add h => exact congrArg some (afterPlus_of_head? h)
  | multiply h => exact congrArg some (afterStar_of_head? h)
  | prepend => rfl
  | append => rfl
  | @below count level rest hcount hlevel =>
    obtain ⟨n, rfl⟩ : ∃ n, count = n + 1 := ⟨count - 1, by omega⟩
    have hread := below?_replicate (n + 1) rest
    rw [levelOfCount_eq_iff.2 hlevel] at hread
    exact hread
  | above hcount hlevel h =>
    have hread := afterStar_replicate hcount h
    rw [levelOfCount_eq_iff.2 hlevel] at hread
    exact congrArg some hread
  | custom spread h => exact custom?_name h spread _

/-- A marker is read from its spellings only. -/
theorem spells_of_ofChars? {m : Marker} {body : List Char} (h : ofChars? table body = some m) :
    m.Spells table body := by
  unfold ofChars? at h
  split at h
  · next rest =>
    have hwhole := replicate_append_run '<' ('<' :: rest)
    have hcount : 1 ≤ (run '<' ('<' :: rest)).1 := by simp [run]
    unfold below? at h
    split at h
    · next count base heq =>
      rw [heq] at hwhole hcount
      obtain rfl := Option.some.inj h
      exact hwhole ▸ .below hcount (levelOfCount_eq_iff.1 rfl)
    · next base heq =>
      rw [heq] at hwhole
      obtain rfl := Option.some.inj h
      exact hwhole ▸ .prepend
    · simp at h
  · next rest =>
    obtain rfl := Option.some.inj h
    have hwhole := replicate_append_run '>' rest
    have hstop := head?_run_ne '>' rest
    unfold afterStar
    split
    · next base heq =>
      rw [heq] at hwhole hstop
      exact .multiply (hwhole ▸ hstop)
    · next count base hcount heq =>
      rw [heq] at hwhole hstop
      exact hwhole ▸ .above (Nat.one_le_iff_ne_zero.2 hcount) (levelOfCount_eq_iff.1 rfl) hstop
  · next rest =>
    obtain rfl := Option.some.inj h
    unfold afterPlus
    split
    · exact .append
    · next hplus =>
      refine .add fun hhead => ?_
      obtain ⟨base, rfl⟩ := List.head?_eq_some_iff.1 hhead
      exact hplus base rfl
  · next rest =>
    have hwhole : rest.takeWhile (· != ')') ++ rest.dropWhile (· != ')') = rest :=
      List.takeWhile_append_dropWhile
    have hclose := List.head?_dropWhile_not (· != ')') rest
    unfold custom? at h
    split at h
    · simp at h
    · next c base hdrop =>
      rw [hdrop] at hwhole hclose
      obtain rfl : c = ')' := by simpa using hclose
      generalize rest.takeWhile (· != ')') = inner at h hwhole
      obtain rfl := hwhole
      split at h
      next spread name hinner =>
      obtain ⟨hname, hm⟩ := Option.ite_none_right_eq_some.1 h
      obtain rfl := Option.some.inj hm
      -- What stands in the parentheses is the name, behind its hash if it has one.
      have hspelled : inner = hashMark spread ++ name.toList := by
        split at hinner <;> obtain ⟨rfl, rfl⟩ := Prod.mk.inj hinner <;> simp
      exact hspelled ▸ .custom spread hname
  · simp at h

/-- The escape is no marker, since no operator has the empty name. -/
theorem ofChars?_escape (base : List Char) : ofChars? table ('(' :: ')' :: base) = none := by
  have hempty : table.contains "" = false := Bool.eq_false_iff.2 fun h =>
    (isOperatorName_iff.1 (OperatorTable.isOperatorName_of_contains h)).1 rfl
  simp [ofChars?, custom?, hempty]

end Marker

namespace Key

variable {table : OperatorTable}

/-- The keys that are spelled with the escape or with a marker, behind a hash or without one. -/
inductive Marked (table : OperatorTable) : Key → List Char → Prop
  | literal (spread : Bool) (base : List Char) :
      Marked table ⟨.assign, String.ofList base, spread, true⟩
        (hashMark spread ++ '(' :: ')' :: base)
  | operator (spread : Bool) {m : Marker} {body : List Char} (h : m.Spells table body) :
      Marked table ⟨m.operator, String.ofList m.rest, spread || m.spread, false⟩
        (hashMark spread ++ body)

/-- The spellings of keys. A key is plain and not escaped if its text is not marked; a hash in front of
it has its array spread. -/
inductive Spells (table : OperatorTable) : Key → List Char → Prop
  | marked {k : Key} {text : List Char} (h : Marked table k text) : Spells table k text
  | bare (spread : Bool) (base : List Char)
      (hunmarked : ∀ k, ¬ Marked table k (hashMark spread ++ base))
      (hhash : spread = false → base.head? ≠ some '#') :
      Spells table ⟨.assign, String.ofList base, spread, false⟩ (hashMark spread ++ base)

/-- A text behind a hash is read as what follows a hash, and a text without one as a whole. -/
theorem ofChars_hashMark (spread : Bool) {body : List Char}
    (h : spread = false → body.head? ≠ some '#') :
    ofChars table (hashMark spread ++ body) = ofBody table spread body := by
  cases spread with
  | true => rfl
  | false =>
    cases body with
    | nil => rfl
    | cons c rest =>
      have hc : c ≠ '#' := by simpa using h
      simp [ofChars, hc]

/-- A marker is read behind a hash, whatever base key follows. -/
theorem ofChars_of_marker (spread : Bool) {body : List Char} {m : Marker}
    (h : Marker.ofChars? table body = some m) :
    ofChars table (hashMark spread ++ body) =
      ⟨m.operator, String.ofList m.rest, spread || m.spread, false⟩ := by
  have hhead : body.head? ≠ some '#' := by
    intro hhash
    obtain ⟨rest, rfl⟩ := List.head?_eq_some_iff.1 hhash
    simp [Marker.ofChars?] at h
  rw [ofChars_hashMark spread fun _ => hhead]
  unfold ofBody
  split
  · rw [Marker.ofChars?_escape] at h
    simp at h
  · simp [h]

/-- A marked key is read as what its escape or its marker says. -/
theorem ofChars_of_marked {k : Key} {text : List Char} (h : Marked table k text) :
    ofChars table text = k := by
  cases h with
  | literal spread base => rw [ofChars_hashMark spread (by simp)]; rfl
  | operator spread h => exact ofChars_of_marker spread (Marker.ofChars?_of_spells h)

/-- What is read behind a hash or without one is marked, unless it is read as the base key of a plain
key. -/
theorem marked_ofBody (table : OperatorTable) (spread : Bool) (body : List Char) :
    Marked table (ofBody table spread body) (hashMark spread ++ body) ∨
      ofBody table spread body = ⟨.assign, String.ofList body, spread, false⟩ := by
  unfold ofBody
  split
  · next base => exact Or.inl (.literal spread base)
  · split
    · next m hm => exact Or.inl (.operator spread (Marker.spells_of_ofChars? hm))
    · exact Or.inr rfl

/-- Marked keys are escaped or no plain keys. -/
theorem Marked.ne_bare {k : Key} {text : List Char} (h : Marked table k text) (base : String)
    (spread : Bool) : k ≠ ⟨.assign, base, spread, false⟩ := by
  cases h with
  | literal => simp
  | operator _ h => cases h <;> simp

/-- A key is read from each of its spellings. -/
theorem ofChars_of_spells {k : Key} {text : List Char} (h : Spells table k text) :
    ofChars table text = k := by
  cases h with
  | marked h => exact ofChars_of_marked h
  | bare spread base hunmarked hhash =>
    rw [ofChars_hashMark spread hhash]
    exact (marked_ofBody table spread base).resolve_left fun h => hunmarked _ h

/-- Every text is a spelling of the key that is read from it. -/
theorem spells_ofChars (table : OperatorTable) (text : List Char) :
    Spells table (ofChars table text) text := by
  have hbody (spread : Bool) (body : List Char) (hhash : spread = false → body.head? ≠ some '#') :
      Spells table (ofChars table (hashMark spread ++ body)) (hashMark spread ++ body) := by
    have hread : ofChars table (hashMark spread ++ body) = ofBody table spread body :=
      ofChars_hashMark spread hhash
    rcases marked_ofBody table spread body with hmarked | hbare
    · exact .marked (hread ▸ hmarked)
    · rw [hread, hbare]
      refine .bare spread body (fun k hk => ?_) hhash
      exact hk.ne_bare _ _ ((ofChars_of_marked hk).symm.trans (hread.trans hbare))
  by_cases hhead : text.head? = some '#'
  · obtain ⟨body, rfl⟩ := List.head?_eq_some_iff.1 hhead
    exact hbody true body (by simp)
  · exact hbody false text fun _ => hhead

/-- Reading accepts exactly the grammar: a text is read as a key if and only if it is one of the key's
spellings. -/
theorem parse_eq_iff_spells (table : OperatorTable) (raw : String) (k : Key) :
    parse table raw = k ↔ Spells table k raw.toList :=
  ⟨fun h => h ▸ spells_ofChars table raw.toList, ofChars_of_spells⟩

end Key

end Overlay
