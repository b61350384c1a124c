import PenFilter.Command.Result
import PenFilter.Filter.Set

/-! # Checking settings

`check` compiles the settings in a file and lists the channels, each with the formula given for
it and, if that one was rejected, with the reason.  A rejected formula fails the command after
the list. -/

namespace PenFilter

/-- A label with blanks up to the width of the widest one. -/
def Channel.paddedLabel (c : Channel) : String :=
  c.label ++ String.ofList (List.replicate (8 - c.label.length) ' ')

namespace ChannelFilter

def toJson (f : ChannelFilter) : Json :=
  .ofMembers <|
    [("channel", .ofString f.channel.name), ("formula", .ofString f.formula),
      ("status", .ofString (if f.rejected.isSome then "fallback" else "ok"))] ++
    (f.rejected.map fun e => ("error", .ofString e.message)).toList

/-- The lines of a channel in the list for people. -/
def text (f : ChannelFilter) : String :=
  match f.rejected with
  | none => "  ✓ " ++ f.channel.paddedLabel ++ " " ++ f.formula ++ "\n"
  | some e =>
    "  ⚠ " ++ f.channel.paddedLabel ++ " " ++ f.formula ++ " (identity fallback)\n      " ++
      e.message ++ "\n"

end ChannelFilter

namespace FilterSet

def toJson (s : FilterSet) : Json :=
  .ofMembers
    [("success", .bool s.rejections.isEmpty), ("variant", .ofString s.variant.text),
      ("settings_hash", .ofString (fingerprintText s.fingerprint)),
      ("channels", .array (s.channels.map ChannelFilter.toJson))]

/-- The list for people. -/
def text (s : FilterSet) : String :=
  "Variant: " ++ s.variant.text ++ " (hash " ++ fingerprintText s.fingerprint ++ ")\n" ++
    String.join (s.channels.map ChannelFilter.text)

/-- The list of channels, and a failure if any formula was rejected. -/
def report (s : FilterSet) (audience : Audience) : CommandResult where
  printed := match audience with
    | .script => s.toJson.pretty ++ "\n"
    | .person => s.text
  error := if s.rejections.isEmpty then none else some (.channelsFellBack s.rejections.length)

end FilterSet

/-- The command that checks the settings in a file. -/
def check [Libraries] (files : Files) (path : String) (audience : Audience) : CommandResult :=
  match Settings.ofFile files path with
  | .error e => .failure (.settings e)
  | .ok settings =>
    match (FilterSet.compile settings).2 with
    | .error e => .failure (.settings e)
    | .ok filters => filters.report audience

end PenFilter
