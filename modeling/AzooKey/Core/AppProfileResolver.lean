import AzooKey.Ipc.Json
import AzooKey.Lib.Layers

/-!
# The settings of an application

`AppProfileResolver` keeps what the settings say about every application and about one
of them, and answers the settings that hold for the one in front. `ResolveImpl` writes
the layers one over the other, all the fields or one of them. The results are that what
it leaves at a field is the value of the last layer that defines it
(`find?_resolveImpl`), and that the way of a single field answers the same as the way
of all of them (`resolveField_eq`).
-/

namespace AzooKey.Core

open AzooKey.Ipc.Json (Value)

/-! ## Values -/

/-- `ipc::json::Object`. -/
abbrev Object := OrderedMap Bytes Value

/-- `IsString` and `AsString`, compared with a text. -/
def isText (text : Bytes) : Value → Bool
  | .string other => other = text
  | _ => false

/-- `IsObject` and `AsObject`. -/
def membersOf : Value → Option (List (Bytes × Value))
  | .object members => some members
  | _ => none

/-- `Value::Find`. -/
def findMember (value : Value) (key : Bytes) : Option Value :=
  (membersOf value).bind (fun members => AssocList.find? members key)

/-- `Value::FindObject`. -/
def findObject (value : Value) (key : Bytes) : Option (List (Bytes × Value)) :=
  (findMember value key).bind membersOf

/-- `ForegroundApp`. -/
structure ForegroundApp where
  processName : Bytes
  windowClass : Bytes
  resolved : Bool := false

/-- `AppNameEqual`. -/
abbrev AppNameEqual := Bytes → Bytes → Bool

/-- The lower case of an ASCII letter. -/
def lowerAscii (ch : UInt8) : UInt8 := if 0x41 ≤ ch && ch ≤ 0x5A then ch + 0x20 else ch

/-- `EqualAsciiAppName`. -/
def equalAsciiAppName (left right : Bytes) : Bool := left.map lowerAscii = right.map lowerAscii

/-- `EqualAppName`, over the comparison of the system for other names. -/
def equalAppName (systemEqual : AppNameEqual) (left right : Bytes) : Bool :=
  if left.all (· < 128) && right.all (· < 128) then equalAsciiAppName left right
  else systemEqual left right

/-! ## The fields of a profile -/

/-- `"privacyMode"`. -/
def privacyMode : Bytes := utf8 "privacyMode"

/-- `"aiBackend"`. -/
def aiBackend : Bytes := utf8 "aiBackend"

/-- `"promptPrefix"`. -/
def promptPrefix : Bytes := utf8 "promptPrefix"

/-- `Enum`. -/
def isEnum (choices : List String) : Value → Bool
  | .string text => (choices.map utf8).contains text
  | _ => false

/-- `Validate`. -/
def validate (key : Bytes) (value : Value) : Option Value :=
  if key = utf8 "profileName" ∨ key = promptPrefix then
    match value with
    | .string _ => some value
    | _ => none
  else if key = utf8 "predictionEnabled" ∨ key = utf8 "sentenceCompletion"
      ∨ key = utf8 "learningEnabled" ∨ key = utf8 "preferTechnicalTerms" then
    match value with
    | .bool _ => some value
    | _ => none
  else if key = aiBackend then
    if isEnum ["auto", "local-zenzai", "openai", "none"] value then some value else none
  else if key = utf8 "style" then
    if isEnum ["auto", "polite", "casual", "technical"] value then some value else none
  else if key = privacyMode then
    if isEnum ["inherit", "normal", "private", "secure"] value then some value else none
  else if key = utf8 "bracketPairing" then
    if isEnum ["auto", "on", "off"] value then some value else none
  else none

/-- `ProcessMatch`: the last key that is equal. -/
def processMatch (values : Object) (name : Bytes) (equal : AppNameEqual) : Option Value :=
  values.entries.foldl (fun selected e => if equal e.1 name then some e.2 else selected) none

/-- `WarnCollisions`. The names seen so far are those in lower case and those outside of
ASCII. -/
def warnCollisions (systemEqual : AppNameEqual) (values : Object) (warnings : List String) :
    List String :=
  let text := "app profile case collision: greatest original key selected"
  (values.entries.foldl (fun (st : (List Bytes × List Bytes) × List String) e =>
    let ((seen, unicodeNames), warnings) := st
    if e.1.any (128 ≤ ·) then
      ((seen, unicodeNames ++ [e.1]),
        if unicodeNames.any (fun previous => equalAppName systemEqual previous e.1) then
          warnings ++ [text]
        else warnings)
    else
      let key := e.1.map lowerAscii
      if seen.contains key then ((seen, unicodeNames), warnings ++ [text])
      else ((seen ++ [key], unicodeNames), warnings))
    (([], []), warnings)).2

/-! ## Sanitizing -/

/-- A boost of 1. -/
def minBoost : Double := .finite (.ofInt 1 (by norm_num))

/-- A boost of 3. -/
def maxBoost : Double := .finite (.ofInt 3 (by norm_num))

/-- `std::clamp(boost, 1.0, 3.0)`. -/
def clampBoost (boost : Double) : Double :=
  if boost.ieeeLt minBoost then minBoost else if maxBoost.ieeeLt boost then maxBoost else boost

/-- The boosts of `candidateTagBoosts`. -/
def sanitizeBoosts (boosts : List (Bytes × Value)) (warnings : List String) :
    Object × List String :=
  boosts.foldl (fun (st : Object × List String) e =>
    match e.2 with
    | .number boost =>
      if boost.value.isFinite then
        let bounded := clampBoost boost.value
        (st.1.emplace e.1 (.number ⟨bounded, []⟩),
          if bounded.ieeeEq boost.value then st.2 else st.2 ++ ["app profile tag boost clamped"])
      else (st.1, st.2 ++ ["invalid app profile tag boost removed"])
    | _ => (st.1, st.2 ++ ["invalid app profile tag boost removed"]))
    (.empty, warnings)

/-- A field of a profile, in the loop of `SanitizeAppProfiles`. -/
def sanitizeField (profile : Object) (key : Bytes) (field : Value) (warnings : List String) :
    Object × List String :=
  match (if key = utf8 "candidateTagBoosts" then membersOf field else none) with
  | some boosts =>
    let (boosts, warnings) := sanitizeBoosts boosts warnings
    (profile.emplace key (.object boosts.entries), warnings)
  | none =>
    match validate key field with
    | some valid => (profile.emplace key valid, warnings)
    | none => (profile, warnings ++ ["unknown or invalid app profile field removed"])

/-- A profile, in the loop of `SanitizeAppProfiles`. -/
def sanitizeProfile (members : List (Bytes × Value)) (warnings : List String) :
    Object × List String :=
  members.foldl (fun st e => sanitizeField st.1 e.1 e.2 st.2) (.empty, warnings)

/-- **`SanitizeAppProfiles`.** -/
def sanitizeAppProfiles (systemEqual : AppNameEqual) (profiles : List (Bytes × Value))
    (warnings : List String) : Object × List String :=
  let (output, warnings) := profiles.foldl (fun (st : Object × List String) e =>
    match membersOf e.2 with
    | none => (st.1, st.2 ++ ["invalid app profile object removed"])
    | some members =>
      let (profile, warnings) := sanitizeProfile members st.2
      (st.1.emplace e.1 (.object profile.entries), warnings)) (.empty, warnings)
  (output, warnCollisions systemEqual output warnings)

/-! ## The resolver -/

/-- `AppProfileResolver`: the profiles are objects, and the global backend is a concrete
one. -/
structure AppProfileResolver where
  profiles : Object
  legacy : Object
  globals : Object
  profiles_objects : ∀ name value, profiles.find? name = some value →
    ∃ members, value = .object members ∧ AssocList.Sorted members
  globals_backend : ∃ backend, globals.find? aiBackend = some (.string backend)
    ∧ backend ≠ utf8 "auto"

/-- The values of `globals_` before the settings are read. -/
def defaultGlobals : Object :=
  [(utf8 "profileName", Value.string []),
    (utf8 "predictionEnabled", .bool true),
    (utf8 "sentenceCompletion", .bool false),
    (utf8 "learningEnabled", .bool true),
    (aiBackend, .string (utf8 "none")),
    (promptPrefix, .string []),
    (utf8 "style", .string (utf8 "auto")),
    (utf8 "preferTechnicalTerms", .bool false),
    (utf8 "candidateTagBoosts", .object []),
    (privacyMode, .string (utf8 "inherit")),
    (utf8 "bracketPairing", .string (utf8 "auto"))].foldl (fun m e => m.emplace e.1 e.2) .empty

/-- The loop of `FromSettings` over `globals_`. -/
def readGlobals (settings : Value) : Object :=
  defaultGlobals.mapValues (fun key value =>
    if key = utf8 "bracketPairing" then value
    else ((findMember settings key).bind (validate key)).getD value)

/-- `globals_`, without the backend that only profiles may have. -/
def concreteGlobals (settings : Value) : Object :=
  if (readGlobals settings).find? aiBackend |>.any (isText (utf8 "auto")) then
    (readGlobals settings).assign aiBackend (.string (utf8 "none"))
  else readGlobals settings

/-- `legacy_`. -/
def legacyPrefixes (members : List (Bytes × Value)) : Object :=
  members.foldl (fun m e =>
    match e.2 with
    | .string _ => m.emplace e.1 e.2
    | _ => m) .empty

/-- A profile is an object. -/
def IsProfile (value : Value) : Prop := ∃ members, value = .object members ∧ AssocList.Sorted members

/-- What is sanitized are objects. -/
theorem holds_sanitizeAppProfiles (systemEqual : AppNameEqual) (profiles : List (Bytes × Value))
    (warnings : List String) :
    OrderedMap.Holds (fun _ => IsProfile) (sanitizeAppProfiles systemEqual profiles warnings).1 := by
  unfold sanitizeAppProfiles
  dsimp only
  suffices hfold : ∀ st : Object × List String, OrderedMap.Holds (fun _ => IsProfile) st.1 →
      OrderedMap.Holds (fun _ => IsProfile) (profiles.foldl (fun (st : Object × List String) e =>
        match membersOf e.2 with
        | none => (st.1, st.2 ++ ["invalid app profile object removed"])
        | some members =>
          ((st.1.emplace e.1 (.object (sanitizeProfile members st.2).1.entries)),
            (sanitizeProfile members st.2).2)) st).1 from
    hfold (.empty, warnings) OrderedMap.holds_empty
  induction profiles with
  | nil => exact fun st h => h
  | cons e profiles ih =>
    intro st h
    rw [List.foldl_cons]
    refine ih _ ?_
    split
    · exact h
    · exact h.emplace ⟨_, rfl, (sanitizeProfile _ st.2).1.sorted⟩

/-- The global backend is one of those that the settings may name. -/
theorem exists_backend (settings : Value) : ∃ backend,
    (readGlobals settings).find? aiBackend = some (.string backend) := by
  have hdefault : defaultGlobals.find? aiBackend = some (.string (utf8 "none")) := by rfl
  rw [readGlobals, OrderedMap.find?_mapValues, hdefault, Option.map_some,
    if_neg (by decide : aiBackend ≠ utf8 "bracketPairing")]
  cases hfield : findMember settings aiBackend with
  | none => exact ⟨_, rfl⟩
  | some field =>
    have hvalidate : validate aiBackend field
        = if isEnum ["auto", "local-zenzai", "openai", "none"] field then some field else none := by
      rfl
    rw [Option.bind_some, hvalidate]
    split
    · next henum =>
      cases field <;> first | exact ⟨_, rfl⟩ | cases henum
    · exact ⟨_, rfl⟩

/-- The backend is concrete. -/
theorem exists_concrete (settings : Value) : ∃ backend,
    (concreteGlobals settings).find? aiBackend = some (.string backend) ∧ backend ≠ utf8 "auto" := by
  obtain ⟨backend, hbackend⟩ := exists_backend settings
  rw [concreteGlobals, hbackend]
  by_cases hauto : backend = utf8 "auto"
  · have hany : ((some (Value.string backend)).any (isText (utf8 "auto"))) = true := by
      rw [hauto, Option.any_some, isText, decide_eq_true_iff]
    rw [if_pos hany, OrderedMap.find?_assign, if_pos rfl]
    exact ⟨_, rfl, by decide⟩
  · have hany : ¬ ((some (Value.string backend)).any (isText (utf8 "auto"))) = true := by
      rw [Option.any_some, isText, decide_eq_true_iff]
      exact hauto
    rw [if_neg hany]
    exact ⟨backend, hbackend, hauto⟩

/-- `profiles_`. -/
def readProfiles (systemEqual : AppNameEqual) (settings : Value) : Object × List String :=
  match findMember settings (utf8 "profilesByApp") with
  | none => (.empty, [])
  | some value =>
    match membersOf value with
    | some profiles => sanitizeAppProfiles systemEqual profiles []
    | none => (.empty, ["invalid profilesByApp removed"])

/-- The profiles are objects. -/
theorem holds_readProfiles (systemEqual : AppNameEqual) (settings : Value) :
    OrderedMap.Holds (fun _ => IsProfile) (readProfiles systemEqual settings).1 := by
  unfold readProfiles
  split
  · exact OrderedMap.holds_empty
  · split
    · exact holds_sanitizeAppProfiles systemEqual _ []
    · exact OrderedMap.holds_empty

/-- **`FromSettings`.** -/
def fromSettings (systemEqual : AppNameEqual) (settings : Value) :
    AppProfileResolver × List String :=
  let legacy := legacyPrefixes ((findObject settings (utf8 "promptPrefixByApp")).getD [])
  ({ profiles := (readProfiles systemEqual settings).1
     legacy := legacy
     globals := concreteGlobals settings
     profiles_objects := holds_readProfiles systemEqual settings
     globals_backend := exists_concrete settings },
    warnCollisions systemEqual legacy (readProfiles systemEqual settings).2)

namespace AppProfileResolver

/-- `globals_.at("aiBackend")`. -/
def globalBackend (r : AppProfileResolver) : Value :=
  (r.globals.find? aiBackend).get (by
    obtain ⟨backend, hbackend, -⟩ := r.globals_backend
    rw [hbackend]
    rfl)

/-- What `overlay` does not skip: the field that is asked for, and no inherited mode. -/
def admits (field : Option Bytes) (key : Bytes) (value : Value) : Bool :=
  !(field.any (fun field => decide (key ≠ field)))
    && !(decide (key = privacyMode) && isText (utf8 "inherit") value)

/-- `apply`, for a value that may be missing. -/
def apply (field : Option Bytes) (value : Option Value) (result : Object) : Object :=
  match value.bind membersOf with
  | some members => Layers.overlay (admits field) members result
  | none => result

/-- The layers of the application, if it is known. -/
def applyApp (r : AppProfileResolver) (app : ForegroundApp) (equal : AppNameEqual)
    (field : Option Bytes) (result : Object) : Object :=
  let result := if app.windowClass ≠ [] then apply field (r.profiles.find? app.windowClass) result
    else result
  let result := if field.all (fun field => decide (field = promptPrefix)) then
      match processMatch r.legacy app.processName equal with
      | some text => result.assign promptPrefix text
      | none => result
    else result
  apply field (processMatch r.profiles app.processName equal) result

/-- The layers of `ResolveImpl`. -/
def resolveLayers (r : AppProfileResolver) (app : ForegroundApp) (equal : AppNameEqual)
    (field : Option Bytes) : Object :=
  let result := Layers.overlay (admits field) r.globals.entries .empty
  let result := apply field (r.profiles.find? (utf8 "default")) result
  if app.resolved ∧ app.processName ≠ [] then r.applyApp app equal field result else result

/-- The end of `ResolveImpl`: no automatic backend, and always a mode. -/
def settle (r : AppProfileResolver) (field : Option Bytes) (result : Object) : Object :=
  let result := if (result.find? aiBackend).any (isText (utf8 "auto")) then
      result.assign aiBackend r.globalBackend
    else result
  if field.all (fun field => decide (field = privacyMode)) ∧ (result.find? privacyMode).isNone then
    result.assign privacyMode (.string (utf8 "inherit"))
  else result

/-- **`ResolveImpl`.** -/
def resolveImpl (r : AppProfileResolver) (app : ForegroundApp) (equal : AppNameEqual)
    (field : Option Bytes) : Object :=
  r.settle field (r.resolveLayers app equal field)

/-- **`Resolve`.** -/
def resolve (r : AppProfileResolver) (app : ForegroundApp) (equal : AppNameEqual) : Object :=
  r.resolveImpl app equal none

/-- **`ResolveField`.** -/
def resolveField (r : AppProfileResolver) (field : Bytes) (app : ForegroundApp)
    (equal : AppNameEqual) : Option Value :=
  (r.resolveImpl app equal (some field)).find? field

/-! ## The layers -/

/-- A layer that is an object, if there is one. -/
def objectLayer (value : Option Value) (key : Bytes) : Option Value :=
  (value.bind membersOf).bind (fun members => AssocList.find? members key)

/-- The layers of the application. -/
def appLayers (r : AppProfileResolver) (app : ForegroundApp) (equal : AppNameEqual) :
    List (Bytes → Option Value) :=
  [objectLayer (if app.windowClass = [] then none else r.profiles.find? app.windowClass),
    fun key => if key = promptPrefix then processMatch r.legacy app.processName equal else none,
    objectLayer (processMatch r.profiles app.processName equal)]

/-- **The layers**, in their order. -/
def layers (r : AppProfileResolver) (app : ForegroundApp) (equal : AppNameEqual) :
    List (Bytes → Option Value) :=
  [r.globals.find?, objectLayer (r.profiles.find? (utf8 "default"))]
    ++ if app.resolved ∧ app.processName ≠ [] then r.appLayers app equal else []

/-- What a layer defines: an inherited mode is none. -/
def defined (layer : Bytes → Option Value) (key : Bytes) : Option Value :=
  (layer key).filter (fun value => !(decide (key = privacyMode) && isText (utf8 "inherit") value))

/-- **The value of a field**: that of the last layer that defines it, with the global
backend in the place of the automatic one, and an inherited mode if there is none. -/
def fieldValue (r : AppProfileResolver) (app : ForegroundApp) (equal : AppNameEqual) (key : Bytes) :
    Option Value :=
  let last := Layers.lastOf ((r.layers app equal).map defined) key
  if key = aiBackend ∧ last.any (isText (utf8 "auto")) then r.globals.find? aiBackend
  else if key = privacyMode then some (last.getD (.string (utf8 "inherit")))
  else last

/-! ## One field or all of them -/

/-- The fields that are asked for: one, or all. -/
def Asks (field : Option Bytes) (key : Bytes) : Prop := field = none ∨ field = some key

/-- What is not skipped of a field that is asked for. -/
theorem admits_of_asks {field : Option Bytes} {key : Bytes} (h : Asks field key) (value : Value) :
    admits field key value
      = !(decide (key = privacyMode) && isText (utf8 "inherit") value) := by
  have hany : field.any (fun field => decide (key ≠ field)) = false := by
    rcases h with rfl | rfl
    · rfl
    · rw [Option.any_some, decide_eq_false_iff_not, not_not]
  rw [admits, hany, Bool.not_false, Bool.true_and]

/-- Whether a field is among those that are asked for. -/
theorem all_eq_of_asks {field : Option Bytes} {key : Bytes} (h : Asks field key) :
    field.all (fun field => decide (field = key)) = true := by
  rcases h with rfl | rfl
  · rfl
  · rw [Option.all_some, decide_eq_true_iff]

/-- What has been written so far is what the layers so far define, at every field that is
asked for. -/
def Agrees (field : Option Bytes) (result : Object) (layers : List (Bytes → Option Value)) : Prop :=
  ∀ key, Asks field key → result.find? key = Layers.lastOf (layers.map defined) key

/-- A layer more. -/
theorem lastOf_map_defined (layers : List (Bytes → Option Value)) (layer : Bytes → Option Value)
    (key : Bytes) : Layers.lastOf ((layers ++ [layer]).map defined) key
      = (defined layer key).or (Layers.lastOf (layers.map defined) key) := by
  rw [List.map_append, List.map_singleton, Layers.lastOf_append_singleton]

/-- **A layer is written.** -/
theorem Agrees.overlay {field : Option Bytes} {result : Object} {layers : List (Bytes → Option Value)}
    (h : Agrees field result layers) {members : List (Bytes × Value)}
    (hmembers : AssocList.Sorted members) :
    Agrees field (Layers.overlay (admits field) members result)
      (layers ++ [AssocList.find? members]) := by
  intro key hkey
  have hadmits : admits field key
      = fun value => !(decide (key = privacyMode) && isText (utf8 "inherit") value) :=
    funext (admits_of_asks hkey)
  rw [Layers.find?_overlay _ hmembers, lastOf_map_defined, h key hkey, hadmits]
  rfl

/-- A layer that defines nothing. -/
theorem Agrees.skip {field : Option Bytes} {result : Object} {layers : List (Bytes → Option Value)}
    (h : Agrees field result layers) {layer : Bytes → Option Value}
    (hlayer : ∀ key, Asks field key → layer key = none) : Agrees field result (layers ++ [layer]) := by
  intro key hkey
  rw [lastOf_map_defined, defined, hlayer key hkey, Option.filter_none, Option.none_or, h key hkey]

/-- An object is written, if there is one. -/
theorem Agrees.apply {field : Option Bytes} {result : Object} {layers : List (Bytes → Option Value)}
    (h : Agrees field result layers) {value : Option Value} (hvalue : ∀ v, value = some v → IsProfile v) :
    Agrees field (apply field value result) (layers ++ [objectLayer value]) := by
  cases value with
  | none => exact h.skip (fun _ _ => rfl)
  | some v =>
    obtain ⟨members, rfl, hmembers⟩ := hvalue v rfl
    exact h.overlay hmembers

/-- What matches is a value. -/
theorem exists_of_processMatch {values : Object} {name : Bytes} {equal : AppNameEqual} {v : Value}
    (h : processMatch values name equal = some v) : ∃ key, values.find? key = some v := by
  have hfold : ∀ (entries : List (Bytes × Value)) (selected : Option Value),
      entries.foldl (fun selected e => if equal e.1 name then some e.2 else selected) selected = some v →
      selected = some v ∨ ∃ key, (key, v) ∈ entries := by
    intro entries
    induction entries with
    | nil => exact fun selected h => Or.inl h
    | cons e entries ih =>
      intro selected h
      rw [List.foldl_cons] at h
      rcases ih _ h with hselected | ⟨key, hkey⟩
      · by_cases hequal : equal e.1 name = true
        · rw [if_pos hequal] at hselected
          cases hselected
          exact Or.inr ⟨e.1, List.mem_cons_self⟩
        · rw [if_neg hequal] at hselected
          exact Or.inl hselected
      · exact Or.inr ⟨key, List.mem_cons_of_mem _ hkey⟩
  rcases hfold values.entries none h with hnone | ⟨key, hkey⟩
  · cases hnone
  · exact ⟨key, values.find?_eq_some_iff.mpr hkey⟩

/-- The legacy prefix is written. -/
theorem Agrees.legacy {field : Option Bytes} {result : Object} {layers : List (Bytes → Option Value)}
    (h : Agrees field result layers) (found : Option Value) :
    Agrees field
      (if field.all (fun field => decide (field = promptPrefix)) then
          match found with
          | some text => result.assign promptPrefix text
          | none => result
        else result)
      (layers ++ [fun key => if key = promptPrefix then found else none]) := by
  intro key hkey
  rw [lastOf_map_defined, defined, ← h key hkey]
  by_cases hprompt : key = promptPrefix
  · have hmode : (decide (key = privacyMode)) = false := by
      rw [hprompt]; decide
    rw [if_pos hprompt, if_pos (hprompt ▸ all_eq_of_asks hkey), hmode]
    cases found with
    | none => rfl
    | some text =>
      show (result.assign promptPrefix text).find? key = _
      rw [OrderedMap.find?_assign, if_pos hprompt]
      rfl
  · rw [if_neg hprompt, Option.filter_none, Option.none_or]
    split
    · split
      · rw [OrderedMap.find?_assign, if_neg hprompt]
      · rfl
    · rfl

/-- The layers of the application are written. -/
theorem Agrees.applyApp {field : Option Bytes} {result : Object}
    {layers : List (Bytes → Option Value)} (h : Agrees field result layers) (r : AppProfileResolver)
    (app : ForegroundApp) (equal : AppNameEqual) :
    Agrees field (r.applyApp app equal field result) (layers ++ r.appLayers app equal) := by
  have hwindow : Agrees field
      (if app.windowClass ≠ [] then AppProfileResolver.apply field (r.profiles.find? app.windowClass)
        result else result)
      (layers ++ [objectLayer
        (if app.windowClass = [] then none else r.profiles.find? app.windowClass)]) := by
    by_cases hclass : app.windowClass = []
    · rw [if_neg (not_not.mpr hclass), if_pos hclass]
      exact h.skip (fun _ _ => rfl)
    · rw [if_pos hclass, if_neg hclass]
      exact h.apply (fun v hv => r.profiles_objects _ v hv)
  have hprocess : ∀ v, processMatch r.profiles app.processName equal = some v → IsProfile v := by
    intro v hv
    obtain ⟨key, hkey⟩ := exists_of_processMatch hv
    exact r.profiles_objects key v hkey
  have hall := (hwindow.legacy (processMatch r.legacy app.processName equal)).apply hprocess
  rwa [List.append_assoc, List.append_assoc] at hall

/-- The layers are written. -/
theorem agrees_resolveLayers (r : AppProfileResolver) (app : ForegroundApp) (equal : AppNameEqual)
    (field : Option Bytes) : Agrees field (r.resolveLayers app equal field) (r.layers app equal) := by
  have hnone : Agrees field .empty [] := fun _ _ => rfl
  have hglobals := hnone.overlay r.globals.sorted
  have hdefault := hglobals.apply (fun v hv => r.profiles_objects (utf8 "default") v hv)
  unfold resolveLayers layers
  dsimp only
  split
  · exact hdefault.applyApp r app equal
  · exact hdefault

/-- What the end leaves at a field. -/
theorem find?_settle (r : AppProfileResolver) {field : Option Bytes} {key : Bytes}
    (hkey : Asks field key) (result : Object) : (r.settle field result).find? key
      = if key = aiBackend ∧ (result.find? key).any (isText (utf8 "auto")) then
          r.globals.find? aiBackend
        else if key = privacyMode then some ((result.find? key).getD (.string (utf8 "inherit")))
        else result.find? key := by
  have hdistinct : aiBackend ≠ privacyMode := by decide
  have hbackend : some r.globalBackend = r.globals.find? aiBackend := Option.some_get _
  unfold settle
  dsimp only
  generalize hmiddle : (if (result.find? aiBackend).any (isText (utf8 "auto")) then
    result.assign aiBackend r.globalBackend else result) = middle
  -- the first step only changes the backend
  have hother : ∀ k, k ≠ aiBackend → middle.find? k = result.find? k := by
    intro k hk
    rw [← hmiddle]
    split
    · rw [OrderedMap.find?_assign, if_neg hk]
    · rfl
  by_cases hmode : key = privacyMode
  · subst hmode
    conv_rhs => rw [if_neg (fun h => hdistinct h.1.symm), if_pos rfl]
    rw [hother _ hdistinct.symm]
    cases hfound : result.find? privacyMode with
    | none =>
      rw [if_pos ⟨all_eq_of_asks hkey, rfl⟩, OrderedMap.find?_assign, if_pos rfl]
      rfl
    | some v =>
      rw [if_neg (fun h => by cases h.2), hother _ hdistinct.symm, hfound]
      rfl
  · -- the second one only changes the mode
    have hlast : ∀ p : Prop, [Decidable p] →
        (if p then middle.assign privacyMode (.string (utf8 "inherit")) else middle).find? key
          = middle.find? key := by
      intro p _
      split
      · rw [OrderedMap.find?_assign, if_neg hmode]
      · rfl
    rw [hlast, if_neg hmode]
    by_cases hai : key = aiBackend
    · subst hai
      rw [← hmiddle]
      by_cases hauto : (result.find? aiBackend).any (isText (utf8 "auto")) = true
      · rw [if_pos hauto, if_pos ⟨rfl, hauto⟩, OrderedMap.find?_assign, if_pos rfl, hbackend]
      · rw [if_neg hauto, if_neg (fun h => hauto h.2)]
    · rw [if_neg (fun h => hai h.1), hother key hai]

/-- **What `ResolveImpl` leaves at a field that is asked for.** -/
theorem find?_resolveImpl (r : AppProfileResolver) (app : ForegroundApp) (equal : AppNameEqual)
    {field : Option Bytes} {key : Bytes} (hkey : Asks field key) :
    (r.resolveImpl app equal field).find? key = r.fieldValue app equal key := by
  rw [resolveImpl, find?_settle r hkey, agrees_resolveLayers r app equal field key hkey]
  rfl

/-- **A single field is resolved as it is among all of them.** -/
theorem resolveField_eq (r : AppProfileResolver) (field : Bytes) (app : ForegroundApp)
    (equal : AppNameEqual) : r.resolveField field app equal = (r.resolve app equal).find? field := by
  rw [resolveField, resolve, find?_resolveImpl r app equal (Or.inr rfl),
    find?_resolveImpl r app equal (Or.inl rfl)]

/-- The backend is never the automatic one. -/
theorem backend_ne_auto (r : AppProfileResolver) (app : ForegroundApp) (equal : AppNameEqual) :
    (r.fieldValue app equal aiBackend).any (isText (utf8 "auto")) = false := by
  obtain ⟨backend, hbackend, hne⟩ := r.globals_backend
  unfold fieldValue
  dsimp only
  split
  · rw [hbackend, Option.any_some, isText, decide_eq_false_iff_not]
    exact hne
  · next h =>
    rw [if_neg (by decide : aiBackend ≠ privacyMode)]
    exact Bool.eq_false_iff.mpr (fun hauto => h ⟨rfl, hauto⟩)

end AppProfileResolver

/-- **The settings that hold for an application.** Whatever the settings say, a single
field is resolved as it is among all of them, to the value of the last layer that
defines it; the backend is never the automatic one, and there is always a mode. -/
theorem resolve_spec (systemEqual : AppNameEqual) (settings : Value) (app : ForegroundApp)
    (equal : AppNameEqual) (field : Bytes) :
    let r := (fromSettings systemEqual settings).1
    r.resolveField field app equal = (r.resolve app equal).find? field
      ∧ (r.resolve app equal).find? field = r.fieldValue app equal field
      ∧ ((r.resolve app equal).find? aiBackend).any (isText (utf8 "auto")) = false
      ∧ ((r.resolve app equal).find? privacyMode).isSome = true := by
  intro r
  have hall : ∀ key, (r.resolve app equal).find? key = r.fieldValue app equal key :=
    fun key => r.find?_resolveImpl app equal (Or.inl rfl)
  refine ⟨r.resolveField_eq field app equal, hall field, ?_, ?_⟩
  · rw [hall]
    exact r.backend_ne_auto app equal
  · rw [hall, AppProfileResolver.fieldValue, if_neg (fun h => absurd h.1 (by decide)), if_pos rfl]
    rfl

end AzooKey.Core
