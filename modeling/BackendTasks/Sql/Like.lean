import BackendTasks.Sql.Table
import Mathlib.Data.List.Infix

/-!
# ILIKE

A pattern is a list of tokens (`tokens`): `%` stands for any characters, `_` for any one, and a
backslash takes the special meaning from the next one. `ilike` matches the whole text
with it, in small letters.

A string between two `%` finds the texts that have a part it stands for (`ilike_finds`). If it is plain,
it stands for itself alone (`ilike_part`); if it is not, some text is found that does not have it
(`exists_found`).
-/

namespace BackendTasks.Sql

/-- The characters with a meaning in a pattern. -/
def signs : List Char := ['%', '_', '\\']

/-- A character and its small letter. -/
structure Locale where
  lower : Char → Char
  lower_sign : ∀ c, ∀ sign ∈ signs, lower c = sign ↔ c = sign

/-- What stands in a pattern. -/
inductive Token
  | any
  | one
  | lit (c : Char)
  deriving DecidableEq

/-- The tokens of a pattern. Nothing is behind the last backslash of a wrong one. -/
def tokens : List Char → Option (List Token)
  | [] => some []
  | c :: pattern =>
    if c = '%' then (tokens pattern).map (.any :: ·)
    else if c = '_' then (tokens pattern).map (.one :: ·)
    else if c = '\\' then
      match pattern with
      | [] => none
      | d :: pattern => (tokens pattern).map (.lit d :: ·)
    else (tokens pattern).map (.lit c :: ·)

/-- The tokens match the whole text. -/
def matchTokens : List Token → List Char → Bool
  | [], text => text.isEmpty
  | .any :: tokens, text => text.tails.any fun rest => matchTokens tokens rest
  | .one :: tokens, text =>
    match text with
    | [] => false
    | _ :: text => matchTokens tokens text
  | .lit c :: tokens, text =>
    match text with
    | [] => false
    | d :: text => c == d && matchTokens tokens text

/-- `text ILIKE pattern`. -/
def ilike (L : Locale) (text pattern : List Char) : Except SqlError Bool :=
  match tokens (pattern.map L.lower) with
  | some ts => .ok (matchTokens ts (text.map L.lower))
  | none => .error .invalidEscape

/-- The string has no character with a meaning in a pattern. -/
def Plain (s : List Char) : Prop := ∀ c ∈ s, c ∉ signs

instance (s : List Char) : Decidable (Plain s) := inferInstanceAs (Decidable (∀ c ∈ s, c ∉ signs))

/-- The text has the string as a part, up to the case of letters. -/
def HasPart (L : Locale) (s text : List Char) : Prop := s.map L.lower <:+: text.map L.lower

instance (L : Locale) (s text : List Char) : Decidable (HasPart L s text) :=
  inferInstanceAs (Decidable (_ <:+: _))

variable {L : Locale} {s text pattern : List Char} {c : Char}

theorem lower_sign {sign : Char} (h : sign ∈ signs) : L.lower sign = sign := (L.lower_sign sign sign h).2 rfl

theorem lower_mem : L.lower c ∈ signs ↔ c ∈ signs := by
  constructor
  · intro h
    rwa [(L.lower_sign c _ h).1 rfl]
  · intro h
    rwa [lower_sign h]

theorem plain_lower (s : List Char) : Plain (s.map L.lower) ↔ Plain s := by
  simp [Plain, lower_mem]

/-! ## Plain strings -/

theorem tokens_plain (h : c ∉ signs) (pattern : List Char) :
    tokens (c :: pattern) = (tokens pattern).map (.lit c :: ·) := by
  simp only [signs, List.mem_cons, List.not_mem_nil, or_false, not_or] at h
  rw [tokens.eq_def]
  simp only [if_neg h.1, if_neg h.2.1, if_neg h.2.2]

theorem tokens_any (pattern : List Char) : tokens ('%' :: pattern) = (tokens pattern).map (.any :: ·) := by
  rw [tokens.eq_def]
  rfl

theorem tokens_one (pattern : List Char) : tokens ('_' :: pattern) = (tokens pattern).map (.one :: ·) := by
  rw [tokens.eq_def]
  rfl

theorem tokens_escape (c : Char) (pattern : List Char) :
    tokens ('\\' :: c :: pattern) = (tokens pattern).map (.lit c :: ·) := by
  rw [tokens.eq_def]
  rfl

theorem tokens_string (h : Plain s) : tokens (s ++ ['%']) = some (s.map Token.lit ++ [.any]) := by
  induction s with
  | nil => rfl
  | cons c s ih =>
    obtain ⟨hc, hs⟩ := List.forall_mem_cons.1 h
    rw [List.cons_append, tokens_plain hc, ih hs]
    rfl

theorem matchTokens_any (text : List Char) : matchTokens [.any] text = true := by
  rw [matchTokens, List.any_eq_true]
  exact ⟨[], by simp, rfl⟩

theorem matchTokens_string (s text : List Char) :
    matchTokens (s.map Token.lit ++ [.any]) text = true ↔ s <+: text := by
  induction s generalizing text with
  | nil => simp [matchTokens_any]
  | cons c s ih =>
    cases text with
    | nil => simp [matchTokens]
    | cons d text => simp [matchTokens, ih, List.cons_prefix_cons]

/-- **A plain string between two `%`** finds the texts that have it as a part. -/
theorem ilike_part (hs : Plain s) (text : List Char) :
    ilike L text ('%' :: s ++ ['%']) = .ok (decide (HasPart L s text)) := by
  have hpattern : ('%' :: s ++ ['%']).map L.lower = '%' :: (s.map L.lower ++ ['%']) := by
    have hany : L.lower '%' = '%' := lower_sign (by decide)
    simp [hany]
  have htokens : tokens (('%' :: s ++ ['%']).map L.lower) =
      some (.any :: ((s.map L.lower).map Token.lit ++ [.any])) := by
    rw [hpattern, tokens_any, tokens_string ((plain_lower s).2 hs)]
    rfl
  have hmatch : matchTokens (.any :: ((s.map L.lower).map Token.lit ++ [.any])) (text.map L.lower) =
      decide (HasPart L s text) := by
    rw [Bool.eq_iff_iff, matchTokens, List.any_eq_true, decide_eq_true_iff, HasPart,
      List.infix_iff_prefix_suffix]
    simp only [List.mem_tails, matchTokens_string, and_comm]
  simp only [ilike, htokens, hmatch]

/-! ## What a pattern stands for -/

/-- The texts that a pattern stands for. -/
inductive Means : List Char → List Char → Prop
  | nil : Means [] []
  | any {pattern text : List Char} (u : List Char) : Means pattern text → Means ('%' :: pattern) (u ++ text)
  | one {pattern text : List Char} (c : Char) : Means pattern text → Means ('_' :: pattern) (c :: text)
  | escape {pattern text : List Char} (c : Char) :
    Means pattern text → Means ('\\' :: c :: pattern) (c :: text)
  | lit {pattern text : List Char} {c : Char} :
    c ∉ signs → Means pattern text → Means (c :: pattern) (c :: text)

/-- The text has a part that the string stands for. A last backslash of its own takes the meaning from
what is behind the string, a `%`, with which the text then ends. -/
def Finds (s text : List Char) : Prop :=
  (∃ part, Means s part ∧ part <:+: text) ∨
    ∃ s' part, s = s' ++ ['\\'] ∧ Means s' part ∧ part ++ ['%'] <:+ text

theorem means_nil : Means [] text ↔ text = [] :=
  ⟨fun h => by cases h; rfl, fun h => h ▸ .nil⟩

theorem means_any : Means ('%' :: pattern) text ↔ ∃ rest, rest <:+ text ∧ Means pattern rest := by
  constructor
  · intro h
    cases h with
    | any u h => exact ⟨_, List.suffix_append u _, h⟩
    | lit hc h => exact absurd (by decide) hc
  · rintro ⟨rest, ⟨u, rfl⟩, h⟩
    exact .any u h

theorem means_one : Means ('_' :: pattern) text ↔ ∃ c rest, text = c :: rest ∧ Means pattern rest := by
  constructor
  · intro h
    cases h with
    | one c h => exact ⟨c, _, rfl, h⟩
    | lit hc h => exact absurd (by decide) hc
  · rintro ⟨c, rest, rfl, h⟩
    exact .one c h

theorem means_escape :
    Means ('\\' :: c :: pattern) text ↔ ∃ rest, text = c :: rest ∧ Means pattern rest := by
  constructor
  · intro h
    cases h with
    | escape c h => exact ⟨_, rfl, h⟩
    | lit hc h => exact absurd (by decide) hc
  · rintro ⟨rest, rfl, h⟩
    exact .escape c h

theorem means_lit (hc : c ∉ signs) :
    Means (c :: pattern) text ↔ ∃ rest, text = c :: rest ∧ Means pattern rest := by
  constructor
  · intro h
    cases h with
    | lit _ h => exact ⟨_, rfl, h⟩
    | _ => exact absurd (by decide) hc
  · rintro ⟨rest, rfl, h⟩
    exact .lit hc h

theorem matchTokens_lit {ts : List Token} :
    matchTokens (.lit c :: ts) text = true ↔ ∃ rest, text = c :: rest ∧ matchTokens ts rest = true := by
  cases text with
  | nil => simp [matchTokens]
  | cons d rest =>
    simp only [matchTokens, Bool.and_eq_true, beq_iff_eq]
    constructor
    · rintro ⟨rfl, h⟩
      exact ⟨rest, rfl, h⟩
    · rintro ⟨rest', heq, h⟩
      obtain ⟨rfl, rfl⟩ := List.cons.inj heq
      exact ⟨rfl, h⟩

/-- **The tokens of a pattern match the texts it stands for.** -/
theorem matchTokens_iff {ts : List Token} (h : tokens pattern = some ts) (text : List Char) :
    matchTokens ts text = true ↔ Means pattern text := by
  fun_induction tokens pattern generalizing ts text with
  | case1 =>
    obtain rfl := Option.some.inj h
    rw [matchTokens, List.isEmpty_iff, means_nil]
  | case2 pattern ih =>
    obtain ⟨ts, hts, rfl⟩ := Option.map_eq_some_iff.1 h
    simp only [matchTokens, List.any_eq_true, List.mem_tails, ih hts, means_any]
  | case3 pattern _ ih =>
    obtain ⟨ts, hts, rfl⟩ := Option.map_eq_some_iff.1 h
    rw [means_one]
    cases text <;> simp [matchTokens, ih hts]
  | case4 => cases h
  | case5 d pattern _ _ ih =>
    obtain ⟨ts, hts, rfl⟩ := Option.map_eq_some_iff.1 h
    simp only [matchTokens_lit, means_escape, ih hts]
  | case6 c pattern hany hone hescape ih =>
    obtain ⟨ts, hts, rfl⟩ := Option.map_eq_some_iff.1 h
    simp only [matchTokens_lit, means_lit (by simp [signs, hany, hone, hescape] : c ∉ signs), ih hts]

/-- Two patterns one behind the other. -/
theorem Means.append {pattern' text' : List Char} (h : Means pattern text) (h' : Means pattern' text') :
    Means (pattern ++ pattern') (text ++ text') := by
  induction h with
  | nil => exact h'
  | any u _ ih =>
    rw [List.append_assoc u]
    exact .any u ih
  | one c _ ih => exact .one c ih
  | escape c _ ih => exact .escape c ih
  | lit hc _ ih => exact .lit hc ih

/-- A string with a `%` behind it. -/
theorem means_concat : Means (s ++ ['%']) text ↔
    (∃ part, Means s part ∧ part <+: text) ∨
      ∃ s' part, s = s' ++ ['\\'] ∧ Means s' part ∧ text = part ++ ['%'] := by
  constructor
  · intro h
    generalize hp : s ++ ['%'] = pattern at h
    induction h generalizing s with
    | nil => simp at hp
    | any u _ ih =>
      cases s with
      | nil => exact .inl ⟨[], .nil, List.nil_prefix⟩
      | cons d s =>
        obtain ⟨rfl, htail⟩ := List.cons.inj hp
        rcases ih htail with ⟨part, hpart, hbegin⟩ | ⟨s', part, rfl, hpart, rfl⟩
        · exact .inl ⟨u ++ part, .any u hpart, (List.prefix_append_right_inj u).2 hbegin⟩
        · exact .inr ⟨'%' :: s', u ++ part, rfl, .any u hpart, (List.append_assoc ..).symm⟩
    | one c _ ih =>
      cases s with
      | nil => simp at hp
      | cons d s =>
        obtain ⟨rfl, htail⟩ := List.cons.inj hp
        rcases ih htail with ⟨part, hpart, hbegin⟩ | ⟨s', part, rfl, hpart, rfl⟩
        · exact .inl ⟨c :: part, .one c hpart, List.cons_prefix_cons.2 ⟨rfl, hbegin⟩⟩
        · exact .inr ⟨'_' :: s', c :: part, rfl, .one c hpart, rfl⟩
    | escape c h ih =>
      cases s with
      | nil => simp at hp
      | cons d s =>
        obtain ⟨rfl, htail⟩ := List.cons.inj hp
        cases s with
        | nil =>
          -- the backslash is the last character of the string
          obtain ⟨rfl, rfl⟩ := List.cons.inj htail
          cases h
          exact .inr ⟨[], [], rfl, .nil, rfl⟩
        | cons e s =>
          obtain ⟨rfl, hlast⟩ := List.cons.inj htail
          rcases ih hlast with ⟨part, hpart, hbegin⟩ | ⟨s', part, rfl, hpart, rfl⟩
          · exact .inl ⟨e :: part, .escape e hpart, List.cons_prefix_cons.2 ⟨rfl, hbegin⟩⟩
          · exact .inr ⟨'\\' :: e :: s', e :: part, rfl, .escape e hpart, rfl⟩
    | lit hc _ ih =>
      cases s with
      | nil =>
        obtain ⟨rfl, -⟩ := List.cons.inj hp
        exact absurd (by decide) hc
      | cons d s =>
        obtain ⟨rfl, htail⟩ := List.cons.inj hp
        rcases ih htail with ⟨part, hpart, hbegin⟩ | ⟨s', part, rfl, hpart, rfl⟩
        · exact .inl ⟨d :: part, .lit hc hpart, List.cons_prefix_cons.2 ⟨rfl, hbegin⟩⟩
        · exact .inr ⟨d :: s', d :: part, rfl, .lit hc hpart, rfl⟩
  · rintro (⟨part, hpart, rest, rfl⟩ | ⟨s', part, rfl, hpart, rfl⟩)
    · have hany : Means ['%'] rest := by simpa using Means.any rest .nil
      exact hpart.append hany
    · rw [List.append_assoc]
      exact hpart.append (.escape '%' .nil)

/-- A `%` on both sides of the string. -/
theorem means_between : Means ('%' :: (s ++ ['%'])) text ↔ Finds s text := by
  simp only [means_any, means_concat, Finds]
  constructor
  · rintro ⟨rest, hrest, ⟨part, hpart, hbegin⟩ | ⟨s', part, rfl, hpart, rfl⟩⟩
    · exact .inl ⟨part, hpart, List.infix_iff_prefix_suffix.2 ⟨rest, hbegin, hrest⟩⟩
    · exact .inr ⟨s', part, rfl, hpart, hrest⟩
  · rintro (⟨part, hpart, hin⟩ | ⟨s', part, rfl, hpart, hend⟩)
    · obtain ⟨rest, hbegin, hrest⟩ := List.infix_iff_prefix_suffix.1 hin
      exact ⟨rest, hrest, .inl ⟨part, hpart, hbegin⟩⟩
    · exact ⟨part ++ ['%'], hend, .inr ⟨s', part, rfl, hpart, rfl⟩⟩

/-! ## Strings that are not plain -/

/-- A text that the tokens match: nothing for `%`, and `x` for `_`. -/
def sample (x : Char) : List Token → List Char
  | [] => []
  | .any :: ts => sample x ts
  | .one :: ts => x :: sample x ts
  | .lit c :: ts => c :: sample x ts

theorem matchTokens_sample (x : Char) (ts : List Token) : matchTokens ts (sample x ts) = true := by
  induction ts with
  | nil => rfl
  | cons token ts ih =>
    cases token with
    | any =>
      rw [matchTokens, List.any_eq_true]
      exact ⟨sample x ts, by simp [sample], ih⟩
    | one => simp [matchTokens, sample, ih]
    | lit c => simp [matchTokens, sample, ih]

/-- The sample is no longer than the string, and another one if the string is not plain. -/
theorem sample_string {x : Char} (hx : x ≠ '_') (s : List Char) :
    ∃ ts, tokens (s ++ ['%']) = some ts ∧ (sample x ts).length ≤ s.length ∧ (sample x ts = s → Plain s) := by
  induction hn : s.length using Nat.strong_induction_on generalizing s with
  | _ n ih =>
    cases s with
    | nil => exact ⟨[.any], rfl, by simp [sample], fun _ => by simp [Plain]⟩
    | cons c s =>
      rw [List.length_cons] at hn
      obtain ⟨ts, hts, hlen, hplain⟩ := ih s.length (by omega) s rfl
      rw [List.cons_append]
      by_cases hany : c = '%'
      · subst hany
        refine ⟨.any :: ts, by rw [tokens_any, hts]; rfl, ?_, fun heq => ?_⟩
        · rw [sample]
          omega
        · have hlonger := congrArg List.length heq
          rw [sample, List.length_cons] at hlonger
          omega
      by_cases hone : c = '_'
      · subst hone
        refine ⟨.one :: ts, by rw [tokens_one, hts]; rfl, ?_, fun heq => ?_⟩
        · rw [sample, List.length_cons]
          omega
        · rw [sample] at heq
          exact absurd (List.cons.inj heq).1 hx
      by_cases hescape : c = '\\'
      · subst hescape
        cases s with
        | nil =>
          -- the backslash takes the meaning from the `%` behind the string
          refine ⟨[.lit '%'], rfl, ?_, fun heq => ?_⟩
          · simp [sample, ← hn]
          · exact absurd heq (by simp [sample])
        | cons d s =>
          rw [List.length_cons] at hn
          obtain ⟨ts, hts, hlen, -⟩ := ih s.length (by omega) s rfl
          refine ⟨.lit d :: ts, by rw [List.cons_append, tokens_escape, hts]; rfl, ?_, fun heq => ?_⟩
          · rw [sample, List.length_cons]
            omega
          · have hlonger := congrArg List.length heq
            rw [sample, List.length_cons, List.length_cons, List.length_cons] at hlonger
            omega
      · have hc : c ∉ signs := by simp [signs, hany, hone, hescape]
        refine ⟨.lit c :: ts, by rw [tokens_plain hc, hts]; rfl, ?_, fun heq => ?_⟩
        · rw [sample, List.length_cons]
          omega
        · rw [sample] at heq
          exact List.forall_mem_cons.2 ⟨hc, hplain (List.cons.inj heq).2⟩

/-- The tokens with every letter made small. -/
def Token.lower (L : Locale) : Token → Token
  | .any => .any
  | .one => .one
  | .lit c => .lit (L.lower c)

theorem sample_lower (x : Char) (ts : List Token) :
    (sample x ts).map L.lower = sample (L.lower x) (ts.map (Token.lower L)) := by
  induction ts with
  | nil => rfl
  | cons token ts ih => cases token <;> simp [sample, Token.lower, ih]

theorem tokens_lower (pattern : List Char) :
    tokens (pattern.map L.lower) = (tokens pattern).map fun ts => ts.map (Token.lower L) := by
  fun_induction tokens pattern with
  | case1 => rfl
  | case2 pattern ih =>
    rw [List.map_cons, lower_sign (by decide), tokens_any, ih, Option.map_map, Option.map_map]
    rfl
  | case3 pattern _ ih =>
    rw [List.map_cons, lower_sign (by decide), tokens_one, ih, Option.map_map, Option.map_map]
    rfl
  | case4 =>
    rw [List.map_cons, lower_sign (by decide)]
    rfl
  | case5 d pattern _ _ ih =>
    rw [List.map_cons, List.map_cons, lower_sign (by decide), tokens_escape, ih, Option.map_map,
      Option.map_map]
    rfl
  | case6 c pattern hany hone hescape ih =>
    have hc : L.lower c ∉ signs := mt lower_mem.1 (by simp [signs, hany, hone, hescape])
    rw [List.map_cons, tokens_plain hc, ih, Option.map_map, Option.map_map]
    rfl

/-- The pattern with a string between two `%` is never a wrong one. -/
theorem tokens_between (L : Locale) (s : List Char) :
    ∃ ts, tokens (('%' :: s ++ ['%']).map L.lower) = some (.any :: ts.map (Token.lower L)) ∧
      (sample 'a' ts).length ≤ s.length ∧ ((sample 'a' ts).map L.lower = s.map L.lower → Plain s) := by
  have hx : L.lower 'a' ≠ '_' := fun h => absurd ((L.lower_sign 'a' '_' (by decide)).1 h) (by decide)
  obtain ⟨ts, hts, hlen, hplain⟩ := sample_string hx (s.map L.lower)
  have hpattern : (s ++ ['%']).map L.lower = s.map L.lower ++ ['%'] := by
    have hany : L.lower '%' = '%' := lower_sign (by decide)
    simp [hany]
  rw [← hpattern, tokens_lower] at hts
  obtain ⟨ts, htokens, rfl⟩ := Option.map_eq_some_iff.1 hts
  refine ⟨ts, ?_, ?_, fun heq => ?_⟩
  · rw [List.cons_append, List.map_cons, lower_sign (by decide), tokens_any, tokens_lower, htokens]
    rfl
  · rwa [← sample_lower, List.length_map, List.length_map] at hlen
  · rw [sample_lower] at heq
    exact (plain_lower s).1 (hplain heq)

/-- **A string between two `%`** finds the texts that have a part it stands for. -/
theorem ilike_finds (L : Locale) (s text : List Char) :
    ∃ found, ilike L text ('%' :: s ++ ['%']) = .ok found ∧
      (found = true ↔ Finds (s.map L.lower) (text.map L.lower)) := by
  obtain ⟨ts, hts, -⟩ := tokens_between L s
  refine ⟨matchTokens (.any :: ts.map (Token.lower L)) (text.map L.lower), by simp only [ilike, hts], ?_⟩
  have hpattern : ('%' :: s ++ ['%']).map L.lower = '%' :: (s.map L.lower ++ ['%']) := by
    have hany : L.lower '%' = '%' := lower_sign (by decide)
    simp [hany]
  rw [matchTokens_iff hts, hpattern, means_between]

/-- It finds a text that is no longer, and another one unless it is plain. -/
theorem exists_sample (s : List Char) : ∃ text, ilike L text ('%' :: s ++ ['%']) = .ok true ∧
    text.length ≤ s.length ∧ (text.map L.lower = s.map L.lower → Plain s) := by
  obtain ⟨ts, hts, hlen, hplain⟩ := tokens_between L s
  refine ⟨sample 'a' ts, ?_, hlen, hplain⟩
  have hmatch := matchTokens_sample (L.lower 'a') (.any :: ts.map (Token.lower L))
  rw [sample, ← sample_lower] at hmatch
  simp only [ilike, hts, hmatch]

theorem HasPart.length_le (h : HasPart L s text) : s.length ≤ text.length := by
  have hle := List.IsInfix.length_le h
  rwa [List.length_map, List.length_map] at hle

/-- **A string that is not plain** finds a text that does not have it as a part. -/
theorem exists_found (hs : ¬ Plain s) :
    ∃ text, ilike L text ('%' :: s ++ ['%']) = .ok true ∧ ¬ HasPart L s text := by
  obtain ⟨text, hfound, hlen, hplain⟩ := exists_sample (L := L) s
  refine ⟨text, hfound, fun hpart => hs (hplain ?_)⟩
  exact (hpart.sublist.eq_of_length_le (by rwa [List.length_map, List.length_map])).symm

end BackendTasks.Sql
