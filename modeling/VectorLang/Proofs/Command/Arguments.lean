import VectorLang.Command.Arguments

/-!
# One more switch on a command line

A switch that is put in front of a command line is turned on, and does nothing else: what the
other words ask for is the same, and so is what is wrong with them.

The words are read one after the other, and no word but a switch looks at the switches that are on.
So it does not matter for a word whether a switch was turned on before.

* `Progress.addWord_turnOn`     one word
* `Request.ofArguments_switch`  a whole command line
-/

namespace VectorLang.Command

/-! ## Settings -/

namespace Settings

@[simp] theorem program_turnOn (s : Switch) (settings : Settings) :
    (settings.turnOn s).program = settings.program := by
  cases s <;> rfl

/-- The order in which switches are turned on does not matter. -/
theorem turnOn_comm (s s' : Switch) (settings : Settings) :
    (settings.turnOn s).turnOn s' = (settings.turnOn s').turnOn s := by
  cases s <;> cases s' <;> rfl

end Settings

/-! ## Words -/

namespace Progress

/-- The same words, with a switch turned on. -/
def turnOn (s : Switch) (p : Progress) : Progress :=
  { p with settings := p.settings.turnOn s }

variable (s : Switch) (p : Progress)

@[simp] theorem program_turnOn : (p.turnOn s).settings.program = p.settings.program :=
  Settings.program_turnOn s p.settings

@[simp] theorem endsInProgram_turnOn : (p.turnOn s).endsInProgram = p.endsInProgram := rfl

theorem addExtra_turnOn (word : String) :
    (p.turnOn s).addExtra word = (p.addExtra word).turnOn s := rfl

theorem addPlain_turnOn (word : String) :
    (p.turnOn s).addPlain word = (p.addPlain word).turnOn s := by
  simp only [addPlain, program_turnOn]
  split
  · cases s <;> rfl
  · rfl

theorem addSwitch_turnOn (s' : Switch) :
    (p.turnOn s).addSwitch s' = (p.addSwitch s').map (turnOn s) := by
  simp only [addSwitch, turnOn]
  split
  · rfl
  · rw [Settings.turnOn_comm]
    rfl

/-- What holds of one word holds of a row of them. -/
private theorem foldlM_turnOn {α : Type} {add : Progress → α → Except Halt Progress}
    (hadd : ∀ p a, add (p.turnOn s) a = (add p a).map (turnOn s)) (as : List α) :
    as.foldlM add (p.turnOn s) = (as.foldlM add p).map (turnOn s) := by
  induction as generalizing p with
  | nil => rfl
  | cons a as ih =>
    rw [List.foldlM_cons, List.foldlM_cons, hadd]
    cases add p a with
    | error e => rfl
    | ok p' => exact ih p'

theorem addWord_turnOn (word : String × Word) :
    (p.turnOn s).addWord word = (p.addWord word).map (turnOn s) := by
  obtain ⟨text, w⟩ := word
  cases w with
  | plain => exact congrArg Except.ok (addPlain_turnOn s p text)
  | unknown => rfl
  | switch s' => exact addSwitch_turnOn s p s'
  | valued s' value => rfl
  | clustered s' letters =>
    cases letters with
    | nil => rfl
    | cons c letters =>
      -- the letters are looked up whatever is turned on
      simp only [addWord]
      cases clusterSwitches s' (c :: letters) with
      | error e => rfl
      | ok found => exact foldlM_turnOn s p (fun p a => addSwitch_turnOn s p a) found

theorem addWords_turnOn (words : List (String × Word)) :
    words.foldlM addWord (p.turnOn s) = (words.foldlM addWord p).map (turnOn s) :=
  foldlM_turnOn s p (fun p a => addWord_turnOn s p a) words

theorem addExtras_turnOn (words : List String) :
    words.foldl (fun p word => p.addExtra word) (p.turnOn s) =
      (words.foldl (fun p word => p.addExtra word) p).turnOn s := by
  induction words generalizing p with
  | nil => rfl
  | cons word words ih => exact ih (p.addExtra word)

theorem addRest_turnOn (words : List String) :
    (p.turnOn s).addRest words = (p.addRest words).turnOn s := by
  cases words with
  | nil =>
    simp only [addRest, program_turnOn, endsInProgram_turnOn, addExtra_turnOn]
    split <;> rfl
  | cons word words =>
    simp only [addRest, program_turnOn, endsInProgram_turnOn, addPlain_turnOn, addExtra_turnOn]
    rw [← addExtras_turnOn, apply_ite (turnOn s), apply_ite (turnOn s)]
    rfl

theorem addAfter_turnOn (words : List String) :
    (p.turnOn s).addAfter words = (p.addAfter words).turnOn s := by
  cases words with
  | nil => rfl
  | cons dashes words => exact addRest_turnOn s p words

/-- A switch that comes first. -/
theorem addWord_start {s : Switch} (hs : s ≠ .help) (word : String) :
    start.addWord (word, .switch s) = .ok (start.turnOn s) := by
  simp only [addWord, addSwitch, if_neg hs]
  rfl

end Progress

/-! ## Command lines -/

/-- A spelling of a switch is taken as that switch. -/
theorem classify_of_lookup {word : String} {s : Switch} (h : switches.lookup word = some s) :
    word ≠ "--" ∧ classify word = .ok (.switch s) := by
  obtain ⟨before, after, hsplit, -⟩ := List.lookup_eq_some_iff.mp h
  have hmem : (word, s) ∈ switches := hsplit ▸ List.mem_append_right before List.mem_cons_self
  simp only [switches, List.mem_cons, List.not_mem_nil, or_false, Prod.mk.injEq] at hmem
  rcases hmem with ⟨rfl, rfl⟩ | ⟨rfl, rfl⟩ | ⟨rfl, rfl⟩ | ⟨rfl, rfl⟩ | ⟨rfl, rfl⟩ | ⟨rfl, rfl⟩ |
    ⟨rfl, rfl⟩ | ⟨rfl, rfl⟩
  all_goals exact ⟨by decide, rfl⟩

/-- What is asked for, with a switch turned on. -/
def Request.turnOn (s : Switch) : Request → Request
  | run settings => run (settings.turnOn s)
  | help => help
  | misuse message => misuse message

theorem Progress.request_turnOn (s : Switch) (p : Progress) :
    (p.turnOn s).request = p.request.turnOn s := by
  simp only [request, apply_ite (Request.turnOn s)]
  rfl

theorem Halt.request_turnOn (s : Switch) (halt : Halt) : halt.request.turnOn s = halt.request := by
  cases halt <;> rfl

theorem Request.ofWords_switch {s : Switch} (hs : s ≠ .help) (word : String)
    (words : List (String × Word)) (after : List String) :
    ofWords ((word, .switch s) :: words) after = (ofWords words after).turnOn s := by
  have hwords : ((word, Word.switch s) :: words).foldlM Progress.addWord .start =
      (words.foldlM Progress.addWord .start).map (Progress.turnOn s) := by
    rw [List.foldlM_cons, Progress.addWord_start hs]
    exact Progress.addWords_turnOn s _ words
  rw [ofWords, ofWords, hwords]
  cases words.foldlM Progress.addWord .start with
  | error halt => exact (Halt.request_turnOn s halt).symm
  | ok p =>
    calc ((p.turnOn s).addAfter after).request
        = ((p.addAfter after).turnOn s).request := by rw [Progress.addAfter_turnOn]
      _ = (p.addAfter after).request.turnOn s := Progress.request_turnOn s _

/-- A switch in front of a command line is turned on and does nothing else. -/
theorem Request.ofArguments_switch {word : String} {s : Switch}
    (hword : switches.lookup word = some s) (hs : s ≠ .help) (args : List String) :
    ofArguments (word :: args) = (ofArguments args).turnOn s := by
  obtain ⟨hdashes, hclassify⟩ := classify_of_lookup hword
  simp only [ofArguments, List.takeWhile_cons, List.dropWhile_cons, bne_iff_ne.mpr hdashes, if_true,
    List.mapM_cons, hclassify]
  cases (args.takeWhile (· != "--")).mapM fun word => (classify word).map fun w => (word, w) with
  | error message => rfl
  | ok words => exact ofWords_switch hs word words _

end VectorLang.Command
