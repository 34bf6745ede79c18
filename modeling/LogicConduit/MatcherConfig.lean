import LogicConduit.TextFields
import LogicConduit.TransformNodes

namespace LogicConduit

inductive ConfigValue
  | u64 (value : UInt64)
  | i64 (value : Int)
  | bool (value : Bool)
  | text (value : String)
  deriving DecidableEq

/-- The named fields of a configuration, in the order they are visited in. -/
abbrev NodeConfig := List (String × ConfigValue)

inductive ConfigOutcome
  | applied
  | needsRestart
  deriving DecidableEq

def MatchOp.parse : String → Option MatchOp
  | "eq" => some .eq
  | "ne" => some .ne
  | "lt" => some .lt
  | "le" => some .le
  | "gt" => some .gt
  | "ge" => some .ge
  | _ => none

def MatchTimestamp.parse : String → Option MatchTimestamp
  | "start" => some .start
  | "end" => some .end
  | _ => none

def PredicateMode.parse : String → Option PredicateMode
  | "compare" => some .compare
  | "range" => some .inclusiveRange
  | "set" => some .set
  | _ => none

def hexDigitValue (c : Char) : Option Nat :=
  if '0' ≤ c ∧ c ≤ '9' then some (c.toNat - 48)
  else if 'a' ≤ c ∧ c ≤ 'f' then some (c.toNat - 87)
  else if 'A' ≤ c ∧ c ≤ 'F' then some (c.toNat - 55)
  else none

/-- `u64::from_str_radix` with radix 16; one plus sign is allowed. -/
def parseHexUnsigned (text : Text) : Option Nat :=
  let digits := if text.head? = some '+' then text.tail else text
  if digits = [] then none
  else
    ((digits.mapM hexDigitValue).map fun values => values.foldl (fun sum digit => 16 * sum + digit) 0).filter (· < 2 ^ 64)

def parseSetValue (text : Text) : Option UInt64 :=
  ((((stripFront ['0', 'x'] text).or (stripFront ['0', 'X'] text)).elim (parseUnsigned text) parseHexUnsigned)).map
    UInt64.ofNat

def parseSetValues (values : String) : Option (List UInt64) :=
  (((values.toList.splitOn ',').map trim).filter (· ≠ [])).mapM parseSetValue

namespace MatcherSettings

def default : MatcherSettings := ⟨0, 0, .eq, .end, .compare, 0, 0, [], 0, 0⟩

/-- The change that a field makes to the settings, where it can be read. -/
def configChange : String × ConfigValue → Option (MatcherSettings → MatcherSettings)
  | ("pattern", .u64 pattern) => some fun settings => { settings with pattern }
  | ("mask", .u64 mask) => some fun settings => { settings with mask }
  | ("op", .text op) => (MatchOp.parse op).map fun op settings => { settings with op }
  | ("trigger_at", .text text) =>
    (MatchTimestamp.parse text).map fun matchTimestamp settings => { settings with matchTimestamp }
  | ("predicate", .text predicate) =>
    (PredicateMode.parse predicate).map fun predicateMode settings => { settings with predicateMode }
  | ("range_min", .u64 rangeMin) => some fun settings => { settings with rangeMin }
  | ("range_max", .u64 rangeMax) => some fun settings => { settings with rangeMax }
  | ("set", .text values) => (parseSetValues values).map fun setValues settings => { settings with setValues }
  | ("match_count", .u64 matchCount) =>
    if 0 < matchCount then some fun settings => { settings with matchCount } else none
  | ("holdoff_ns", .u64 holdoffNs) => some fun settings => { settings with holdoffNs }
  | _ => none

def configured : MatcherSettings → NodeConfig → Option MatcherSettings
  | settings, [] => some settings
  | settings, field :: fields => (configChange field).bind fun change => (change settings).configured fields

/-- The settings behind a configuration that was validated when it was scheduled. -/
def reconfigured (settings : MatcherSettings) (config : NodeConfig) : MatcherSettings :=
  (settings.configured config).getD settings

theorem configChange_matchCount {field : String × ConfigValue} {change : MatcherSettings → MatcherSettings}
    (h : configChange field = some change) {settings : MatcherSettings} (hcount : 0 < settings.matchCount) :
    0 < (change settings).matchCount := by
  unfold configChange at h
  split at h
  case h_9 =>
    split at h
    next hpos =>
      cases h
      exact hpos
    next => cases h
  case h_11 => cases h
  all_goals
    first
    | cases h
      exact hcount
    | obtain ⟨value, -, rfl⟩ := Option.map_eq_some_iff.mp h
      exact hcount

theorem configured_matchCount {config : NodeConfig} {settings next : MatcherSettings}
    (h : settings.configured config = some next) (hcount : 0 < settings.matchCount) : 0 < next.matchCount := by
  induction config generalizing settings with
  | nil =>
    cases h
    exact hcount
  | cons field fields ih =>
    obtain ⟨change, hchange, hnext⟩ := Option.bind_eq_some_iff.mp h
    exact ih hnext (configChange_matchCount hchange hcount)

theorem reconfigured_matchCount (config : NodeConfig) {settings : MatcherSettings} (hcount : 0 < settings.matchCount) :
    0 < (settings.reconfigured config).matchCount := by
  rw [reconfigured]
  cases hconfig : settings.configured config with
  | none => exact hcount
  | some next => exact configured_matchCount hconfig hcount

end MatcherSettings

namespace WordMatcher

/-- `schedule_config`, on the queue that the matcher shares with its scheduler. -/
def scheduleConfig (matcher : WordMatcher) (config : NodeConfig) (boundaryNs : UInt64) : ConfigOutcome × WordMatcher :=
  if (MatcherSettings.default.configured config).isNone then (.needsRestart, matcher)
  else if matcher.scheduled.getLast?.any fun previous => boundaryNs < previous.1 then (.needsRestart, matcher)
  else
    (.applied, { matcher with
      scheduled := matcher.scheduled ++ [(boundaryNs, fun settings => settings.reconfigured config)] })

def built (settings : MatcherSettings) (manualRearm : Bool) (pulseNs : UInt64) : WordMatcher :=
  { new settings.pattern settings.mask with
    settings := { settings with matchCount := max settings.matchCount 1 }
    manualRearm
    pulseNs := max pulseNs 1 }

end WordMatcher

end LogicConduit
