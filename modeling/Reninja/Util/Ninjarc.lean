import Reninja.Graph.Basic

/-!
# Options from rc files

`RCConfig.Apply` of `internal/ninjarc` puts together the arguments of the flag set: default rules,
the rules of the selected config and the command line. An option `--config=NAME` brings in the rules
of that config first. Configs may refer to each other in a circle; one that is being expanded is not
expanded again.
-/

namespace Reninja.Ninjarc

/-- `names` lists the configs that have rules. -/
structure RCConfig where
  namedRcRules : GoString → GoString → List GoString
  defaultRcRules : GoString → List GoString
  names : List GoString
  mem_names : ∀ {config tool : GoString}, namedRcRules config tool ≠ [] → config ∈ names

/-- The config that an option refers to: behind its dashes it is `config=` and the name. -/
def configName (opt : GoString) : Option GoString :=
  let flag := opt.dropWhile (· = 45)
  let key := flag.takeWhile (· ≠ 61)
  if 61 ∈ flag ∧ key = "config" then some (flag.drop (key.length + 1)) else none

/-- The variables of `Apply` that its closures change. -/
structure Expander where
  expandedValues : List GoString := []
  seenConfigs : List GoString := []

variable (c : RCConfig) (toolName : GoString)

/-- The options of a config for `tools`, in the order in which they are expanded. -/
def RCConfig.rules (config : GoString) : List GoString :=
  [("common" : GoString), toolName].flatMap (c.namedRcRules config)

def addOptionToExpanded (expandRules : GoString → Expander → Option Expander) (opt : GoString)
    (st : Expander) : Option Expander := do
  let st ← match configName opt with
    | some config => expandRules config st
    | none => some st
  some { st with expandedValues := st.expandedValues ++ [opt] }

def addOptions (expandRules : GoString → Expander → Option Expander) :
    List GoString → Expander → Option Expander
  | [], st => some st
  | opt :: opts, st => do addOptions expandRules opts (← addOptionToExpanded expandRules opt st)

def expandRules : Nat → GoString → Expander → Option Expander
  | 0, _, _ => none
  | fuel + 1, config, st =>
    if config ∈ st.seenConfigs then some st
    else do
      let st ← addOptions (expandRules fuel) (c.rules toolName config)
        { st with seenConfigs := config :: st.seenConfigs }
      some { st with seenConfigs := st.seenConfigs.filter (· ≠ config) }

/-- `Apply`: the arguments that the flag set is given to parse. -/
def RCConfig.apply (fuel : Nat) (config : GoString) (args : List GoString) :
    Option (List GoString) := do
  let st ← addOptions (expandRules c toolName fuel)
    ([("common" : GoString), toolName].flatMap c.defaultRcRules) {}
  let st ← expandRules c toolName fuel config st
  some (st.expandedValues ++ args)

/-- The options with the rules of each config that they refer to before it, unless it is one of
those being expanded. -/
inductive Expands : List GoString → List GoString → List GoString → Prop
  | nil (being : List GoString) : Expands being [] []
  | plain {being opts out : List GoString} {opt : GoString} (h : configName opt = none) :
      Expands being opts out → Expands being (opt :: opts) (opt :: out)
  | again {being opts out : List GoString} {opt config : GoString}
      (h : configName opt = some config) (hmem : config ∈ being) :
      Expands being opts out → Expands being (opt :: opts) (opt :: out)
  | config {being opts out inner : List GoString} {opt config : GoString}
      (h : configName opt = some config) (hmem : config ∉ being) :
      Expands (config :: being)
        (c.namedRcRules config "common" ++ c.namedRcRules config toolName) inner →
      Expands being opts out → Expands being (opt :: opts) (inner ++ opt :: out)

variable {c toolName} {fuel : Nat}

lemma RCConfig.rules_eq (config : GoString) :
    c.rules toolName config =
      c.namedRcRules config "common" ++ c.namedRcRules config toolName := by
  simp [RCConfig.rules]

def ExpandsConfig (c : RCConfig) (toolName : GoString) (being : List GoString) (config : GoString)
    (out : List GoString) : Prop :=
  if config ∈ being then out = []
  else Expands c toolName (config :: being) (c.rules toolName config) out

lemma addOptions_expands {expand : GoString → Expander → Option Expander} {being : List GoString}
    (h : ∀ config values, ∃ out, expand config ⟨values, being⟩ = some ⟨values ++ out, being⟩ ∧
      ExpandsConfig c toolName being config out) (opts values : List GoString) :
    ∃ out, addOptions expand opts ⟨values, being⟩ = some ⟨values ++ out, being⟩ ∧
      Expands c toolName being opts out := by
  induction opts generalizing values with
  | nil => exact ⟨[], by simp [addOptions], .nil _⟩
  | cons opt opts ih =>
    cases hopt : configName opt with
    | none =>
      obtain ⟨out, hout, hexpands⟩ := ih (values ++ [opt])
      refine ⟨opt :: out, ?_, .plain hopt hexpands⟩
      simpa [addOptions, addOptionToExpanded, hopt] using hout
    | some config =>
      obtain ⟨inner, hinner, hconfig⟩ := h config values
      obtain ⟨out, hout, hexpands⟩ := ih (values ++ inner ++ [opt])
      refine ⟨inner ++ opt :: out, ?_, ?_⟩
      · simpa [addOptions, addOptionToExpanded, hopt, hinner] using hout
      · by_cases hmem : config ∈ being
        · rw [ExpandsConfig, if_pos hmem] at hconfig
          subst hconfig
          exact .again hopt hmem hexpands
        · rw [ExpandsConfig, if_neg hmem, RCConfig.rules_eq] at hconfig
          exact .config hopt hmem hconfig hexpands

def RCConfig.unseen (c : RCConfig) (being : List GoString) : Nat :=
  (c.names.filter (· ∉ being)).length

lemma RCConfig.unseen_cons_lt {being : List GoString} {config : GoString} (hmem : config ∉ being)
    (h : c.rules toolName config ≠ []) : c.unseen (config :: being) < c.unseen being := by
  have hname : config ∈ c.names := by
    rw [RCConfig.rules_eq, ne_eq, List.append_eq_nil_iff, not_and_or] at h
    exact h.elim c.mem_names c.mem_names
  have hfilter : c.names.filter (· ∉ config :: being) =
      (c.names.filter (· ∉ being)).filter (· ≠ config) := by
    rw [List.filter_filter]
    exact List.filter_congr fun x _ => by simp
  rw [RCConfig.unseen, RCConfig.unseen, hfilter, List.length_filter_lt_length_iff_exists]
  exact ⟨config, List.mem_filter.mpr ⟨hname, by simpa using hmem⟩, by simp⟩

lemma expandRules_expands {being : List GoString} (hfuel : c.unseen being < fuel)
    (config : GoString) (values : List GoString) :
    ∃ out, expandRules c toolName fuel config ⟨values, being⟩ = some ⟨values ++ out, being⟩ ∧
      ExpandsConfig c toolName being config out := by
  induction fuel generalizing being config values with
  | zero => exact absurd hfuel (Nat.not_lt_zero _)
  | succ fuel ih =>
    simp only [expandRules, ExpandsConfig]
    by_cases hmem : config ∈ being
    · exact ⟨[], by simp [hmem], by simp [hmem]⟩
    · simp only [if_neg hmem]
      have hopts : ∃ out, addOptions (expandRules c toolName fuel) (c.rules toolName config)
            ⟨values, config :: being⟩ = some ⟨values ++ out, config :: being⟩ ∧
          Expands c toolName (config :: being) (c.rules toolName config) out := by
        by_cases hnil : c.rules toolName config = []
        · rw [hnil]
          exact ⟨[], by simp [addOptions], .nil _⟩
        · have hlt := RCConfig.unseen_cons_lt hmem hnil
          exact addOptions_expands (ih (Nat.lt_of_lt_of_le hlt (Nat.le_of_lt_succ hfuel))) _ _
      obtain ⟨out, hout, hexpands⟩ := hopts
      refine ⟨out, ?_, hexpands⟩
      have hfilter : (config :: being).filter (· ≠ config) = being := by
        rw [List.filter_cons_of_neg (by simp), List.filter_eq_self]
        intro x hx
        simpa using fun h : x = config => hmem (h ▸ hx)
      rw [hout, Option.bind_eq_bind, Option.bind_some, hfilter]

lemma Expands.exists_append {being opts opts' out : List GoString}
    (h : Expands c toolName being (opts ++ opts') out) : ∃ out₁ out₂, out = out₁ ++ out₂ ∧
      Expands c toolName being opts out₁ ∧ Expands c toolName being opts' out₂ := by
  induction opts generalizing out with
  | nil => exact ⟨[], out, rfl, .nil _, h⟩
  | cons opt opts ih =>
    cases h with
    | plain hopt h =>
      obtain ⟨out₁, out₂, rfl, h₁, h₂⟩ := ih h
      exact ⟨opt :: out₁, out₂, rfl, .plain hopt h₁, h₂⟩
    | again hopt hmem h =>
      obtain ⟨out₁, out₂, rfl, h₁, h₂⟩ := ih h
      exact ⟨opt :: out₁, out₂, rfl, .again hopt hmem h₁, h₂⟩
    | config hopt hmem hinner h =>
      obtain ⟨out₁, out₂, rfl, h₁, h₂⟩ := ih h
      exact ⟨_, out₂, by simp, .config hopt hmem hinner h₁, h₂⟩

/-- `Apply` ends, and the flag set is given the default rules, common ones first, those of the
selected config, and the arguments of the command line. -/
theorem apply_expands (c : RCConfig) (toolName config : GoString) (args : List GoString) (k : Nat) :
    ∃ common tool selected,
      c.apply toolName (c.names.length + 1 + k) config args =
        some (common ++ tool ++ selected ++ args) ∧
      Expands c toolName [] (c.defaultRcRules "common") common ∧
      Expands c toolName [] (c.defaultRcRules toolName) tool ∧
      Expands c toolName [config] (c.namedRcRules config "common" ++ c.namedRcRules config toolName)
        selected := by
  have hfuel : c.unseen [] < c.names.length + 1 + k := by
    have := c.names.length_filter_le (· ∉ ([] : List GoString))
    rw [RCConfig.unseen]
    omega
  have hexpand := @expandRules_expands c toolName _ _ hfuel
  obtain ⟨out, hout, hdefault⟩ := addOptions_expands hexpand
    ([("common" : GoString), toolName].flatMap c.defaultRcRules) []
  obtain ⟨selected, hselected, hconfig⟩ := hexpand config out
  simp only [List.flatMap_cons, List.flatMap_nil, List.append_nil] at hdefault
  obtain ⟨common, tool, rfl, hcommon, htool⟩ := hdefault.exists_append
  rw [ExpandsConfig, if_neg List.not_mem_nil, RCConfig.rules_eq] at hconfig
  refine ⟨common, tool, selected, ?_, hcommon, htool, hconfig⟩
  rw [List.nil_append] at hout
  rw [RCConfig.apply, hout, Option.bind_eq_bind, Option.bind_some, hselected, Option.bind_some]

/-- Two configs that refer to each other. -/
def circle : RCConfig where
  namedRcRules config tool :=
    if tool ≠ "common" then []
    else if config = "a" then ["-v", "--config=b"]
    else if config = "b" then ["--config=a", "-n"]
    else []
  defaultRcRules _ := []
  names := ["a", "b"]
  mem_names := by
    intro config tool h
    grind

example : circle.apply "build" 3 "a" ["all"] = some [("-v" : GoString), "--config=a", "-n",
    "--config=b", "all"] := by decide +kernel

end Reninja.Ninjarc
