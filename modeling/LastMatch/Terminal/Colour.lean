import LastMatch.Terminal.Environment

/-!
# When to use colour

No output goes to a terminal that could be asked, so the environment decides. There are two rules:
one for the warnings and errors of a run, and one for help and complaints about the options.
-/

namespace LastMatch.Colour

/-- The variables that show, by being set, that a build service runs the program. -/
def serviceVariables : List String :=
  ["CI_NAME", "GITHUB_ACTION", "GITLAB_CI", "NETLIFY", "TRAVIS", "CODEBUILD_SRC_DIR",
   "BUILDER_OUTPUT", "GITLAB_DEPLOYMENT", "NOW_GITHUB_DEPLOYMENT", "NOW_BUILDER",
   "BITBUCKET_DEPLOYMENT", "GERRIT_PROJECT", "SYSTEM_TEAMFOUNDATIONCOLLECTIONURI", "BITRISE_IO",
   "BUDDY_WORKSPACE_ID", "BUILDKITE", "CIRRUS_CI", "APPVEYOR", "CIRCLECI", "SEMAPHORE", "DRONE",
   "DSARI", "TDDIUM", "STRIDER", "TASKCLUSTER_ROOT_URL", "JENKINS_URL", "bamboo.buildKey",
   "GO_PIPELINE_NAME", "HUDSON_URL", "WERCKER", "MAGNUM", "NEVERCODE", "RENDER", "SAIL_CI",
   "SHIPPABLE"]

/-- The variables that the rules look at. -/
def consulted : List String :=
  ["FORCE_COLOR", "CLICOLOR_FORCE", "NO_COLOR", "TERM", "IGNORE_IS_TERMINAL", "COLORTERM",
   "CLICOLOR", "TERM_PROGRAM", "CI", "NODE"] ++ serviceVariables

/-- Is the text an unsigned number with the value zero? A plus sign may stand before the digits. -/
def isZero (v : String) : Bool :=
  let digits := match v.toList with
    | '+' :: ds => ds
    | ds => ds
  !digits.isEmpty && digits.all (· = '0')

/-- Is colour demanded? `FORCE_COLOR` demands it unless it is `false` or zero. Where it is not set,
`CLICOLOR_FORCE` demands it unless it is `0`. -/
def isForced (env : Environment) : Bool :=
  -- a value that is no text counts as not set, and the other variable decides
  match env.text? "FORCE_COLOR" with
  | some v => v != "false" && !isZero v
  | none => (env.text? "CLICOLOR_FORCE").any (· != "0")

def isDeclined (env : Environment) : Bool :=
  (env.text? "NO_COLOR").any (· != "0") || env.text? "TERM" == some "dumb"

/-- Should a stream that is no terminal be treated like one? -/
def ignoresTerminal (env : Environment) : Bool :=
  (env.text? "IGNORE_IS_TERMINAL").any (· != "0")

/-- Does a build service run the program? Most services have a variable of their own, and one is
known by where its interpreter lies. -/
def isBuildService (env : Environment) : Bool :=
  (env.text? "CI").any (· ∈ ["true", "1", "woodpecker"]) ||
    (env.text? "NODE").any (·.endsWith "//heroku/node/bin/node") ||
    serviceVariables.any fun name => (env.text? name).isSome

/-- Does the environment speak of a reader that shows colours? Terminals do, and so do the logs of
build services. -/
def isOffered (env : Environment) : Bool :=
  (env.text? "TERM").isSome || (env.text? "COLORTERM").isSome ||
    (env.text? "TERM_PROGRAM").any (· ∈ ["iTerm.app", "Apple_Terminal"]) ||
    (env.text? "CLICOLOR").any (· != "0") || isBuildService env

/-- Are the warnings and errors of a run coloured? A demand wins over a refusal. -/
def forDiagnostics (env : Environment) : Bool :=
  isForced env || (!isDeclined env && ignoresTerminal env && isOffered env)

/-- Are help and complaints about the options coloured? Here a refusal wins over a demand, and both
are a matter of being set to anything but the empty value. -/
def forOptions (env : Environment) : Bool :=
  !(env.bytes? "NO_COLOR").any (!·.isEmpty) && (env.bytes? "CLICOLOR_FORCE").any (!·.isEmpty)

end LastMatch.Colour
