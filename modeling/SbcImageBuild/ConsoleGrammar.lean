import SbcImageBuild.OverlayContent
import SbcImageBuild.OverlayPath
import SbcImageBuild.TemplateExpansion

/-!
# The console of a board

`validate_board_profile` accepts `CONSOLE` by one pattern; `build_debian.sh` and `verify.sh` of the
console overlay take it apart by removing prefixes and suffixes. Its purpose is a grammar: a device,
a comma and a baud rate.
-/
namespace ConsoleGrammar

open Delimited ShellText BoardProfile FileTree FileCommands OverlayText OverlayTree
open OverlayPlacement
open TemplateExpansion (consoleDevice consoleSpeed)
open Placeholders (percent IsName)

def wantsPath (console : Text) : Text :=
  "/etc/systemd/system/getty.target.wants/serial-getty@".toList ++ consoleDevice console ++
    ".service".toList

def baudPath (console : Text) : Text :=
  "/etc/systemd/system/serial-getty@".toList ++ consoleDevice console ++
    ".service.d/10-baud.conf".toList

/-- `overlay_verify` of the console overlay. It takes `CONSOLE` apart as the build does. -/
def overlayVerify (rfCat : Text → Text) (rfExists : Text → Bool) (console : Text) :
    Except Text Unit := do
  let cs := consoleSpeed console
  require (∃ line ∈ records '\n' (rfCat (baudPath console)),
      "--keep-baud ".toList ++ cs ++ ",115200".toList <:+: line)
    "Debian serial getty does not preserve the board console speed".toList
  require (rfExists (wantsPath console))
    ("Debian rootfs does not enable serial-getty@".toList ++ consoleDevice console ++
      ".service".toList)

section Testing

variable {pre t post : Text}

end Testing

section Replacing

variable {pre post pattern value t : Text} {c : Char}

end Replacing

section Rounds

variable {vars : Variables} {pre post name console : Text}

end Rounds

section Parts

variable {console device rest : Text}

end Parts

section Overlay

variable {console : Text} {env : Variables} {order : TokenOrder}

end Overlay

end ConsoleGrammar
