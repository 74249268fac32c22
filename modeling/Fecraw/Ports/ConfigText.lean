import Fecraw.Ports.Config

/-!
# Quoted values of a configuration file

A line goes through `strip_inline_comment`, is divided at the first `=`, goes
through `strip_inline_comment` once more and loses its quotes.  For a quoted
value without quotes and backslashes in it none of this takes anything away,
whatever else stands between the quotes or in the comment behind them.

## Main results

* `parseLine_quoted`: a line with a quoted value sets its field to this value.
* `parseLine_frame`: a line that sets another key leaves the field alone.
* `parseTomlConfig_quoted`: the value is in the field after the whole file.
-/

namespace Fecraw.Ports.Config

/-- The keys whose values are kept as text. -/
inductive TextKey where
  | key
  | subnet
  | tunDev
  | fec
deriving Repr, DecidableEq

namespace TextKey

def sectionName : TextKey → List Char
  | .key => "general".toList
  | .subnet | .tunDev => "vpn".toList
  | .fec => "fec".toList

def name : TextKey → List Char
  | .key => "key".toList
  | .subnet => "subnet".toList
  | .tunDev => "tun_dev".toList
  | .fec => "fec".toList

/-- The capacity of the field, without the NUL. -/
def room : TextKey → Nat
  | .key => 999
  | .subnet | .tunDev => 31
  | .fec => 63

def get (cfg : FecrawConfig) : TextKey → List Char
  | .key => cfg.key
  | .subnet => cfg.subnet
  | .tunDev => cfg.tunDev
  | .fec => cfg.fecStr

end TextKey

/-- A line `key = "s"`, with blanks anywhere around the parts and maybe a comment. -/
def QuotedLine (k : TextKey) (s line : List Char) : Prop :=
  ∃ ws₁ ws₂ ws₃ ws₄ comment : List Char,
    (∀ c ∈ ws₁ ++ ws₂ ++ ws₃ ++ ws₄, isWs c = true) ∧
    (comment = [] ∨ comment.head? = some '#') ∧
    line = ws₁ ++ (k.name ++ (ws₂ ++ ('=' :: (ws₃ ++ ('\x22' :: (s ++ ('\x22' ::
      (ws₄ ++ comment))))))))

/-- The section that follows a line. -/
def sectionAfter (sec raw : List Char) : List Char :=
  let line := stripInlineComment raw
  if line.head? = some '[' ∧ ']' ∈ line then line.tail.takeWhile (· ≠ ']') else sec

/-- The key that a line sets. -/
def keyOf (raw : List Char) : Option (List Char) :=
  let line := stripInlineComment raw
  if line = [] ∨ line.head? = some '#' ∨ line.head? = some '[' ∨ '=' ∉ line then none
  else some (trimWs (line.takeWhile (· ≠ '=')))

/-- No line sets the key, starting in a section. -/
def SetsNone (k : TextKey) : List Char → List (List Char) → Prop
  | _, [] => True
  | sec, raw :: rest =>
      ¬ (sec = k.sectionName ∧ keyOf raw = some k.name) ∧ SetsNone k (sectionAfter sec raw) rest

/-! ## Blanks, comments and quotes -/

/-- Blanks around a text are taken off. -/
theorem trimWs_pad {ws mid ws' : List Char} (hws : ∀ c ∈ ws, isWs c = true)
    (hws' : ∀ c ∈ ws', isWs c = true) (hfirst : ∀ c ∈ mid.head?, isWs c = false)
    (hlast : ∀ c ∈ mid.getLast?, isWs c = false) : trimWs (ws ++ (mid ++ ws')) = mid := by
  have hright : (mid ++ ws').rdropWhile isWs = mid := by
    unfold List.rdropWhile
    rw [List.reverse_append, List.dropWhile_append_of_pos (by simpa using hws')]
    show mid.rdropWhile isWs = mid
    rw [List.rdropWhile_eq_self_iff]
    intro hne
    rw [hlast _ (List.getLast_mem_getLast? hne)]
    exact Bool.false_ne_true
  unfold trimWs
  rw [List.dropWhile_append_of_pos hws]
  cases mid with
  | nil =>
      rw [List.nil_append, List.dropWhile_eq_nil_iff.mpr hws']
      rfl
  | cons c mid =>
      rw [List.cons_append, List.dropWhile_cons_of_neg (by simp [hfirst c rfl]), ← List.cons_append]
      exact hright

/-- Outside of quotes, text without quotes and comment signs stays. -/
theorem beforeComment_plain {xs : List Char} (h : ∀ c ∈ xs, c ≠ '\x22' ∧ c ≠ '#')
    (rest : List Char) :
    beforeComment false false (xs ++ rest) = xs ++ beforeComment false false rest := by
  induction xs with
  | nil => rfl
  | cons c xs ih =>
      obtain ⟨hquote, hsharp⟩ := h c List.mem_cons_self
      have ih := ih fun c hc => h c (List.mem_cons_of_mem _ hc)
      simp [beforeComment, hquote, hsharp, ih]

/-- Inside of quotes, text without quotes and backslashes stays. -/
theorem beforeComment_inQuote {s : List Char} (h : ∀ c ∈ s, c ≠ '\x22' ∧ c ≠ '\x5c')
    (rest : List Char) :
    beforeComment true false (s ++ ('\x22' :: rest)) =
      s ++ ('\x22' :: beforeComment false false rest) := by
  induction s with
  | nil => rfl
  | cons c s ih =>
      obtain ⟨hquote, hback⟩ := h c List.mem_cons_self
      have ih := ih fun c hc => h c (List.mem_cons_of_mem _ hc)
      simp [beforeComment, hquote, hback, ih]

/-- A quoted text stays as it is. -/
theorem beforeComment_quoted {s : List Char} (h : ∀ c ∈ s, c ≠ '\x22' ∧ c ≠ '\x5c')
    (rest : List Char) :
    beforeComment false false ('\x22' :: (s ++ ('\x22' :: rest))) =
      '\x22' :: (s ++ ('\x22' :: beforeComment false false rest)) := by
  rw [← beforeComment_inQuote h]
  rfl

theorem beforeComment_comment {comment : List Char}
    (h : comment = [] ∨ comment.head? = some '#') : beforeComment false false comment = [] := by
  rcases h with rfl | h
  · rfl
  · cases comment with
    | nil => rfl
    | cons c rest =>
        obtain rfl := Option.some.inj h
        rfl

theorem ne_of_isWs {c : Char} (h : isWs c = true) : c ≠ '\x22' ∧ c ≠ '#' ∧ c ≠ '=' := by
  refine ⟨?_, ?_, ?_⟩ <;> rintro rfl <;> exact absurd h (by decide)

/-- A text whose characters were all tested.  Deciding the right side instead goes
through all of `Char`. -/
theorem forall_mem_of_all {s : List Char} {P : Char → Prop} [DecidablePred P]
    (h : s.all (fun c => decide (P c)) = true) : ∀ c ∈ s, P c :=
  fun c hc => of_decide_eq_true (List.all_eq_true.mp h c hc)

/-- The characters of a key are none that the parser looks for. -/
theorem ne_of_mem_name {k : TextKey} {c : Char} (h : c ∈ k.name) :
    c ≠ '\x22' ∧ c ≠ '#' ∧ c ≠ '=' ∧ c ≠ '[' ∧ isWs c = false := by
  have hall : ∀ c ∈ k.name, c ≠ '\x22' ∧ c ≠ '#' ∧ c ≠ '=' ∧ c ≠ '[' ∧ isWs c = false :=
    forall_mem_of_all (by cases k <;> decide)
  exact hall c h

/-- The two quotes come off. -/
theorem stripQuotes_quoted (s : List Char) : stripQuotes ('\x22' :: (s ++ ['\x22'])) = s := by
  unfold stripQuotes
  rw [if_pos]
  · simp
  · refine ⟨by simp, rfl, ?_⟩
    rw [← List.cons_append, List.getLast?_append]
    rfl

theorem strncpy_eq_take {s : List Char} (h : ∀ c ∈ s, c ≠ '\x00') (n : Nat) :
    strncpy n s = s.take n := by
  unfold strncpy
  rw [List.takeWhile_eq_self_iff.mpr (by simpa using h)]

/-! ## The line -/

/-- What is left of a quoted line, and of its right-hand side. -/
theorem stripInlineComment_pad {ws mid ws' comment : List Char} {s : List Char}
    (hws : ∀ c ∈ ws, isWs c = true) (hws' : ∀ c ∈ ws', isWs c = true)
    (hmid : ∀ c ∈ mid, c ≠ '\x22' ∧ c ≠ '#') (hfirst : ∀ c ∈ mid.head?, isWs c = false)
    (hs : ∀ c ∈ s, c ≠ '\x22' ∧ c ≠ '\x5c') (hcomment : comment = [] ∨ comment.head? = some '#') :
    stripInlineComment (ws ++ (mid ++ ('\x22' :: (s ++ ('\x22' :: (ws' ++ comment)))))) =
      mid ++ ('\x22' :: (s ++ ['\x22'])) := by
  have hplain : ∀ {xs : List Char}, (∀ c ∈ xs, isWs c = true) → ∀ c ∈ xs, c ≠ '\x22' ∧ c ≠ '#' :=
    fun hall c hc => ⟨(ne_of_isWs (hall c hc)).1, (ne_of_isWs (hall c hc)).2.1⟩
  unfold stripInlineComment
  rw [beforeComment_plain (hplain hws), beforeComment_plain hmid, beforeComment_quoted hs,
    beforeComment_plain (hplain hws'), beforeComment_comment hcomment, List.append_nil]
  have hassoc : mid ++ ('\x22' :: (s ++ ('\x22' :: ws'))) =
      (mid ++ ('\x22' :: (s ++ ['\x22']))) ++ ws' := by
    simp
  rw [hassoc]
  refine trimWs_pad hws hws' ?_ ?_
  · cases mid with
    | nil =>
        intro c hc
        obtain rfl := Option.some.inj hc
        rfl
    | cons c mid => exact hfirst
  · intro c hc
    have hquote : (mid ++ ('\x22' :: (s ++ ['\x22']))).getLast? = some '\x22' := by
      rw [show mid ++ ('\x22' :: (s ++ ['\x22'])) = (mid ++ ('\x22' :: s)) ++ ['\x22'] by simp,
        List.getLast?_append]
      rfl
    rw [hquote] at hc
    obtain rfl := Option.some.inj hc
    rfl

/-- The section, the key and the value of a quoted line are found. -/
theorem parseLine_quoted {k : TextKey} {s line : List Char} (hline : QuotedLine k s line)
    (hs : ∀ c ∈ s, c ≠ '\x22' ∧ c ≠ '\x5c') (st : List Char × FecrawConfig) :
    parseLine st line = (setKey st.2 st.1 k.name s).map fun cfg => (st.1, cfg) := by
  obtain ⟨ws₁, ws₂, ws₃, ws₄, comment, hws, hcomment, rfl⟩ := hline
  have hws₁ : ∀ c ∈ ws₁, isWs c = true := fun c hc => hws c (by simp [hc])
  have hws₂ : ∀ c ∈ ws₂, isWs c = true := fun c hc => hws c (by simp [hc])
  have hws₃ : ∀ c ∈ ws₃, isWs c = true := fun c hc => hws c (by simp [hc])
  have hws₄ : ∀ c ∈ ws₄, isWs c = true := fun c hc => hws c (by simp [hc])
  have hname : k.name ≠ [] := by
    cases k <;> decide
  -- what is left of the line starts with the key
  have hleft : stripInlineComment (ws₁ ++ (k.name ++ (ws₂ ++ ('=' :: (ws₃ ++ ('\x22' :: (s ++
      ('\x22' :: (ws₄ ++ comment))))))))) =
        k.name ++ (ws₂ ++ ('=' :: (ws₃ ++ ('\x22' :: (s ++ ['\x22']))))) := by
    have hpad := @stripInlineComment_pad ws₁ (k.name ++ (ws₂ ++ ('=' :: ws₃))) ws₄ comment s
      hws₁ hws₄ ?_ ?_ hs hcomment
    · simpa only [List.append_assoc, List.cons_append] using hpad
    · intro c hc
      simp only [List.mem_append, List.mem_cons] at hc
      rcases hc with hc | hc | rfl | hc
      · exact ⟨(ne_of_mem_name hc).1, (ne_of_mem_name hc).2.1⟩
      · exact ⟨(ne_of_isWs (hws₂ c hc)).1, (ne_of_isWs (hws₂ c hc)).2.1⟩
      · decide
      · exact ⟨(ne_of_isWs (hws₃ c hc)).1, (ne_of_isWs (hws₃ c hc)).2.1⟩
    · intro c hc
      rw [List.head?_append_of_ne_nil _ hname] at hc
      exact (ne_of_mem_name (List.mem_of_mem_head? hc)).2.2.2.2
  have hhead : ∀ c, c = '#' ∨ c = '[' → (k.name ++ (ws₂ ++ ('=' :: (ws₃ ++ ('\x22' :: (s ++
      ['\x22'])))))).head? ≠ some c := by
    intro c hc heq
    rw [List.head?_append_of_ne_nil _ hname] at heq
    have hne := ne_of_mem_name (List.mem_of_mem_head? heq)
    rcases hc with rfl | rfl
    · exact hne.2.1 rfl
    · exact hne.2.2.2.1 rfl
  have hkey : ∀ c ∈ k.name ++ ws₂, decide (c ≠ '=') = true := by
    intro c hc
    rw [decide_eq_true_eq]
    rcases List.mem_append.mp hc with hc | hc
    · exact (ne_of_mem_name hc).2.2.1
    · exact (ne_of_isWs (hws₂ c hc)).2.2
  have htrim : trimWs (k.name ++ ws₂) = k.name := by
    refine trimWs_pad (fun c hc => absurd hc List.not_mem_nil) hws₂ ?_ ?_
    · exact fun c hc => (ne_of_mem_name (List.mem_of_mem_head? hc)).2.2.2.2
    · exact fun c hc => (ne_of_mem_name (List.mem_of_getLast? hc)).2.2.2.2
  have hval : stripInlineComment (ws₃ ++ ('\x22' :: (s ++ ['\x22']))) =
      '\x22' :: (s ++ ['\x22']) :=
    @stripInlineComment_pad ws₃ [] [] [] s hws₃ (fun c hc => absurd hc List.not_mem_nil)
      (fun c hc => absurd hc List.not_mem_nil) (fun c hc => absurd hc (by simp)) hs (.inl rfl)
  unfold parseLine
  dsimp only
  rw [hleft, if_neg, if_neg (hhead '[' (.inr rfl)), if_pos (by simp), ← List.append_assoc,
    List.takeWhile_append_of_pos hkey, List.dropWhile_append_of_pos hkey]
  · rw [List.takeWhile_cons_of_neg (by simp), List.dropWhile_cons_of_neg (by simp),
      List.append_nil, htrim, List.tail_cons, hval, stripQuotes_quoted]
  · rintro (hnil | hsharp)
    · exact hname (List.append_eq_nil_iff.mp hnil).1
    · exact hhead '#' (.inl rfl) hsharp

/-- A quoted line in its section sets the field. -/
theorem setKey_name (k : TextKey) (cfg : FecrawConfig) (s : List Char) :
    ∃ cfg', setKey cfg k.sectionName k.name s = some cfg' ∧ k.get cfg' = strncpy k.room s := by
  cases k <;> exact ⟨_, rfl, rfl⟩

/-! ## The other lines -/

theorem setGeneral_frame {k : TextKey} {cfg cfg' : FecrawConfig} {key val : List Char}
    (hother : ¬ ("general".toList = k.sectionName ∧ key = k.name))
    (hok : setGeneral cfg key val = some cfg') : k.get cfg' = k.get cfg := by
  unfold setGeneral at hok
  cases k with
  | key =>
      have hne : ¬ key = "key".toList := fun hkey => hother ⟨rfl, hkey⟩
      rw [if_neg hne] at hok
      split_ifs at hok <;> cases hok <;> rfl
  | subnet | tunDev | fec => split_ifs at hok <;> cases hok <;> rfl

theorem setNetwork_frame (k : TextKey) (cfg : FecrawConfig) (key val : List Char) :
    k.get (setNetwork cfg key val) = k.get cfg := by
  unfold setNetwork
  split_ifs
  · obtain ⟨addr, port, heq⟩ := setListen_eq cfg val
    rw [heq]
    cases k <;> rfl
  · obtain ⟨addr, port, heq⟩ := setRemote_eq cfg val
    rw [heq]
    cases k <;> rfl
  all_goals cases k <;> rfl

theorem setVpn_frame {k : TextKey} {key : List Char}
    (hother : ¬ ("vpn".toList = k.sectionName ∧ key = k.name)) (cfg : FecrawConfig)
    (val : List Char) : k.get (setVpn cfg key val) = k.get cfg := by
  unfold setVpn
  cases k with
  | subnet =>
      have hne : ¬ key = "subnet".toList := fun hkey => hother ⟨rfl, hkey⟩
      rw [if_neg hne]
      split_ifs <;> rfl
  | tunDev =>
      have hne : ¬ key = "tun_dev".toList := fun hkey => hother ⟨rfl, hkey⟩
      rw [if_neg hne]
      split_ifs <;> rfl
  | key | fec => split_ifs <;> rfl

theorem setFec_frame {k : TextKey} {key : List Char}
    (hother : ¬ ("fec".toList = k.sectionName ∧ key = k.name)) (cfg : FecrawConfig)
    (val : List Char) : k.get (setFec cfg key val) = k.get cfg := by
  unfold setFec
  cases k with
  | fec =>
      have hne : ¬ key = "fec".toList := fun hkey => hother ⟨rfl, hkey⟩
      rw [if_neg hne]
      split_ifs <;> rfl
  | key | subnet | tunDev => split_ifs <;> rfl

/-- A setting of another key leaves the field alone. -/
theorem setKey_frame {k : TextKey} {cfg cfg' : FecrawConfig} {sec key val : List Char}
    (hother : ¬ (sec = k.sectionName ∧ key = k.name))
    (hok : setKey cfg sec key val = some cfg') : k.get cfg' = k.get cfg := by
  unfold setKey at hok
  split at hok
  next hsec =>
    rw [hsec] at hother
    exact setGeneral_frame hother hok
  split at hok
  · cases hok
    exact setNetwork_frame k cfg key val
  split at hok
  next hsec =>
    rw [hsec] at hother
    cases hok
    exact setVpn_frame hother cfg val
  split at hok
  next hsec =>
    rw [hsec] at hother
    cases hok
    exact setFec_frame hother cfg val
  · cases hok
    rfl

/-- If a setting is accepted does not depend on the others. -/
theorem setKey_isSome (cfg cfg₂ : FecrawConfig) (sec key val : List Char) :
    (setKey cfg sec key val).isSome = (setKey cfg₂ sec key val).isSome := by
  unfold setKey setGeneral
  split_ifs <;> rfl

/-- A line leaves a field alone whose key it does not set. -/
theorem parseLine_frame {k : TextKey} {st st' : List Char × FecrawConfig} {raw : List Char}
    (hother : ¬ (st.1 = k.sectionName ∧ keyOf raw = some k.name))
    (hok : parseLine st raw = some st') : k.get st'.2 = k.get st.2 := by
  unfold parseLine at hok
  unfold keyOf at hother
  dsimp only at hok hother
  split at hok
  · cases hok
    rfl
  next hline =>
    split at hok
    · split at hok <;> cases hok <;> rfl
    next hsection =>
      split at hok
      next heq =>
        rw [if_neg (by tauto)] at hother
        obtain ⟨cfg', hset, rfl⟩ := Option.map_eq_some_iff.mp hok
        exact setKey_frame (fun hboth => hother ⟨hboth.1, congrArg some hboth.2⟩) hset
      · cases hok
        rfl

/-- A line moves on to the section that it opens. -/
theorem parseLine_section {st st' : List Char × FecrawConfig} {raw : List Char}
    (hok : parseLine st raw = some st') : st'.1 = sectionAfter st.1 raw := by
  unfold parseLine at hok
  unfold sectionAfter
  dsimp only at hok ⊢
  split at hok
  next hline =>
    cases hok
    rw [if_neg]
    rintro ⟨hhead, -⟩
    rcases hline with hnil | hsharp
    · rw [hnil] at hhead
      cases hhead
    · rw [hsharp] at hhead
      exact absurd (Option.some.inj hhead) (by decide)
  next hline =>
    split at hok
    next hhead =>
      split at hok
      next hclose =>
        cases hok
        rw [if_pos ⟨hhead, hclose⟩]
      next hopen =>
        cases hok
        rw [if_neg fun hboth => hopen hboth.2]
    next hhead =>
      rw [if_neg fun hboth => hhead hboth.1]
      split at hok
      · obtain ⟨cfg', -, rfl⟩ := Option.map_eq_some_iff.mp hok
        rfl
      · cases hok
        rfl

/-- If a line is accepted depends on its section only. -/
theorem parseLine_isSome (sec : List Char) (cfg cfg₂ : FecrawConfig) (raw : List Char) :
    (parseLine (sec, cfg) raw).isSome = (parseLine (sec, cfg₂) raw).isSome := by
  unfold parseLine
  dsimp only
  split_ifs
  · rfl
  · rfl
  · rfl
  · rw [Option.isSome_map, Option.isSome_map]
    exact setKey_isSome cfg cfg₂ _ _ _
  · rfl

/-! ## The file -/

theorem foldlM_section {lines : List (List Char)} {st st' : List Char × FecrawConfig}
    (hok : lines.foldlM parseLine st = some st') : st'.1 = lines.foldl sectionAfter st.1 := by
  induction lines generalizing st with
  | nil =>
      cases hok
      rfl
  | cons raw lines ih =>
      rw [List.foldlM_cons] at hok
      obtain ⟨st₁, hline, hrest⟩ := Option.bind_eq_some_iff.mp hok
      rw [ih hrest, parseLine_section hline]
      rfl

/-- Lines that set other keys are accepted with any configuration, and leave the
field alone. -/
theorem foldlM_frame {k : TextKey} {lines : List (List Char)} {sec : List Char}
    {cfg₂ : FecrawConfig} (hnone : SetsNone k sec lines)
    (hsome : (lines.foldlM parseLine (sec, cfg₂)).isSome = true) (cfg : FecrawConfig) :
    ∃ st, lines.foldlM parseLine (sec, cfg) = some st ∧ k.get st.2 = k.get cfg := by
  induction lines generalizing sec cfg₂ cfg with
  | nil => exact ⟨_, rfl, rfl⟩
  | cons raw lines ih =>
      obtain ⟨hother, hnone⟩ := hnone
      obtain ⟨st₂, hok₂⟩ := Option.isSome_iff_exists.mp hsome
      rw [List.foldlM_cons] at hok₂
      obtain ⟨⟨sec₂, cfg₃⟩, hline₂, hrest₂⟩ := Option.bind_eq_some_iff.mp hok₂
      have hline : (parseLine (sec, cfg) raw).isSome = true := by
        rw [parseLine_isSome sec cfg cfg₂, hline₂]
        rfl
      obtain ⟨⟨sec₁, cfg₁⟩, hline⟩ := Option.isSome_iff_exists.mp hline
      have hsec₁ : sec₁ = sectionAfter sec raw := parseLine_section hline
      have hsec₂ : sec₂ = sectionAfter sec raw := parseLine_section hline₂
      subst hsec₁ hsec₂
      obtain ⟨st, hrest, hget⟩ := ih hnone (by rw [hrest₂]; rfl) cfg₁
      refine ⟨st, ?_, ?_⟩
      · rw [List.foldlM_cons, hline]
        exact hrest
      · rw [hget]
        exact parseLine_frame hother hline

/-- A quoted value is in its field after parsing, cut to the capacity: in any file
whose other lines are accepted, where the line stands in its section and no later
line sets the same key. -/
theorem parseTomlConfig_quoted {k : TextKey} {s line : List Char} (hline : QuotedLine k s line)
    (hs : ∀ c ∈ s, c ≠ '\x22' ∧ c ≠ '\x5c' ∧ c ≠ '\n' ∧ c ≠ '\x00')
    {pre post : List (List Char)} {text : List Char}
    (hlines : text.splitOn '\n' = pre ++ line :: post)
    (hsec : pre.foldl sectionAfter [] = k.sectionName) (hlater : SetsNone k k.sectionName post)
    {cfg : FecrawConfig} (hothers : ((pre ++ post).foldlM parseLine ([], cfg)).isSome = true) :
    ∃ cfg', parseTomlConfig cfg text = some cfg' ∧ k.get cfg' = s.take k.room := by
  obtain ⟨st₂, hothers⟩ := Option.isSome_iff_exists.mp hothers
  rw [List.foldlM_append] at hothers
  obtain ⟨⟨sec, cfg₁⟩, hpre, hpost⟩ := Option.bind_eq_some_iff.mp hothers
  have hsec₁ : sec = k.sectionName := (foldlM_section hpre).trans hsec
  subst hsec₁
  obtain ⟨cfg₂, hset, hget⟩ := setKey_name k cfg₁ s
  have hquoted : parseLine (k.sectionName, cfg₁) line = some (k.sectionName, cfg₂) := by
    rw [parseLine_quoted hline fun c hc => ⟨(hs c hc).1, (hs c hc).2.1⟩, hset]
    rfl
  obtain ⟨st, hrest, hframe⟩ := foldlM_frame hlater (by rw [hpost]; rfl) cfg₂
  refine ⟨st.2, ?_, ?_⟩
  · unfold parseTomlConfig
    rw [hlines, List.foldlM_append, hpre, Option.bind_eq_bind, Option.bind_some, List.foldlM_cons,
      hquoted, Option.bind_eq_bind, Option.bind_some, hrest]
    rfl
  · rw [hframe, hget, strncpy_eq_take fun c hc => (hs c hc).2.2.2]

/-- A password with a comment sign, an equals sign, brackets and blanks in it. -/
theorem parseTomlConfig_quoted_key : ∃ cfg',
    parseTomlConfig {} "mtu = 3\n[general] # us\n\tkey= \"#=[a] \" # the \"key\"\n[fec]".toList =
      some cfg' ∧ cfg'.key = "#=[a] ".toList :=
  @parseTomlConfig_quoted .key "#=[a] ".toList "\tkey= \"#=[a] \" # the \"key\"".toList
    ⟨['\t'], [], [' '], [' '], "# the \"key\"".toList, forall_mem_of_all (by decide), .inr rfl,
      by decide⟩ (forall_mem_of_all (by decide))
    ["mtu = 3".toList, "[general] # us".toList] ["[fec]".toList] _ (by decide) (by decide)
    ⟨by decide, trivial⟩ {} (by decide)

end Fecraw.Ports.Config
