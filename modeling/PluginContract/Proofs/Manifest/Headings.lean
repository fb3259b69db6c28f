import PluginContract.Manifest.Assembly

/-!
# The field that a warning's text names

The text of every warning starts with the field that it is about. No heading is
the start of another one, so the field can be read off the text, whatever values
the text goes on to show.
-/

namespace PluginContract.Manifest

/-- The fields that an assembly settles. -/
def settledFields : List String :=
  ["name", "short_name", "description", "commands", listenersKey, "skipBotEvents", "configuration"]

namespace Warning

/-- How the text of a warning about a field starts. -/
def heading (key : String) : String :=
  if key = listenersKey then s!"manifest[\"{key}\"]: " else s!"manifest.{key}: "

/-- Whether a text is a warning about a field. -/
def isAbout (key text : String) : Bool := (heading key).toList.isPrefixOf text.toList

theorem isAbout_append {key text : String} (h : isAbout key text = true) (more : String) :
    isAbout key (text ++ more) = true := by
  rw [isAbout, List.isPrefixOf_iff_prefix] at h ⊢
  rw [String.toList_append]
  exact h.trans (List.prefix_append _ _)

/-- A text is about a field if its heading comes before all else. -/
theorem isAbout_of_eq {key text : String} (rest : String) (h : text = heading key ++ rest) :
    isAbout key text = true := by
  rw [isAbout, List.isPrefixOf_iff_prefix, h, String.toList_append]
  exact List.prefix_append _ _

theorem isAbout_named {key : String} (h : key ≠ listenersKey) :
    isAbout key ("manifest." ++ key ++ ": no \"") = true := by
  have hheading : heading key = "manifest." ++ key ++ ": " := if_neg h
  have hno : ": no \"" = ": " ++ "no \"" := rfl
  refine isAbout_of_eq "no \"" ?_
  rw [hheading, hno, String.append_assoc, String.append_assoc, String.append_assoc]

theorem isAbout_keptFromManifest {key : String} (h : key ≠ listenersKey) (value : Json) :
    isAbout key (keptFromManifest key value).message = true := by
  refine isAbout_append (isAbout_append (isAbout_append ?_ _) _) _
  exact isAbout_named h

theorem isAbout_absent {key : String} (h : key ≠ listenersKey) :
    isAbout key (absent key).message = true := by
  refine isAbout_append (isAbout_append (isAbout_append ?_ _) _) _
  exact isAbout_named h

theorem isAbout_noCommandSchema : isAbout "commands" noCommandSchema.message = true := by
  refine isAbout_append ?_ _
  exact isAbout_of_eq "no \"commandSchema\" export found in schema module. " (by rfl)

theorem isAbout_invalidUnion (message : String) :
    isAbout "commands" (invalidUnion message).message = true := by
  refine isAbout_append (isAbout_append ?_ _) _
  exact isAbout_of_eq "commandSchema could not be converted: " (by rfl)

theorem isAbout_invalidCommands (fault : CommandFault) :
    isAbout "commands" (invalidCommands fault).message = true := by
  refine isAbout_append (isAbout_append ?_ _) _
  exact isAbout_of_eq "" (by rfl)

theorem isAbout_noEvents : isAbout listenersKey noEvents.message = true := by
  refine isAbout_append ?_ _
  exact isAbout_of_eq "no SupportedEvents type found. " (by rfl)

theorem isAbout_invalidEvents (fault : ListenerFault) :
    isAbout listenersKey (invalidEvents fault).message = true := by
  refine isAbout_append ?_ _
  exact isAbout_of_eq "SupportedEvents type found but invalid: " (by rfl)

theorem isAbout_flag (fault : FlagFault) :
    isAbout "skipBotEvents" (flag fault).message = true := by
  cases fault with
  | unrecognized value =>
      refine isAbout_append (isAbout_append (isAbout_append ?_ _) _) _
      exact isAbout_of_eq "unrecognized value \"" (by rfl)
  | notText typeName =>
      refine isAbout_append (isAbout_append (isAbout_append ?_ _) _) _
      exact isAbout_of_eq "invalid type \"" (by rfl)

theorem isAbout_noSettingsSchema : isAbout "configuration" noSettingsSchema.message = true := by
  refine isAbout_append ?_ _
  exact isAbout_of_eq "no \"pluginSettingsSchema\" export found in schema module. " (by rfl)

theorem eq_of_heading_isPrefixOf : ∀ key ∈ settledFields, ∀ other ∈ settledFields,
    (heading key).toList.isPrefixOf (heading other).toList = true → key = other := by
  decide +kernel

/-- A text is a warning about one of the settled fields at most. -/
theorem eq_of_isAbout {key other text : String} (hk : key ∈ settledFields)
    (ho : other ∈ settledFields) (h : isAbout key text = true) (h' : isAbout other text = true) :
    key = other := by
  rw [isAbout, List.isPrefixOf_iff_prefix] at h h'
  rcases List.prefix_or_prefix_of_prefix h h' with hp | hp
  · exact eq_of_heading_isPrefixOf key hk other ho (List.isPrefixOf_iff_prefix.mpr hp)
  · exact (eq_of_heading_isPrefixOf other ho key hk (List.isPrefixOf_iff_prefix.mpr hp)).symm

end Warning

/-- The texts of the warnings about a field. -/
def warningsOn (key : String) (warnings : List Warning) : List String :=
  (warnings.map Warning.message).filter (Warning.isAbout key)

theorem warningsOn_append (key : String) (first more : List Warning) :
    warningsOn key (first ++ more) = warningsOn key first ++ warningsOn key more := by
  simp [warningsOn]

end PluginContract.Manifest
