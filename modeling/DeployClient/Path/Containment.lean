import DeployClient.Path.Basic

/-!
Which paths lie inside the working directory. The answer is lexical: `..` takes back the
component before it, and symbolic links are not followed.
-/

namespace DeployClient.Path

/-- The normal form of `p` as seen from the working directory, if it stays inside of it. -/
def resolveWithin (workingDir p : Path) : Option Path :=
  let absolute := (workingDir.join p).normalize
  if absolute.startsWith workingDir then some absolute else none

end DeployClient.Path
