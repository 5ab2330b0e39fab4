/-!
# Usage texts

What the program tells about its own use, for itself and for its command `run`.
-/

namespace Brainfuck.CommandLine

/-- Lines, each with its end. -/
def unlines (lines : List String) : String :=
  lines.foldl (fun text line => text ++ line ++ "\n") ""

/-- The use of the program called `name`. -/
def usage (name : String) : String :=
  unlines [
    "Usage:",
    s!"  {name} run [OPTIONS] \"<code>\"       # Run Brainfuck code (args are concatenated)",
    s!"  {name} run [OPTIONS] --file <PATH>  # Run Brainfuck code loaded from file",
    "",
    "Environment:",
    "  JBF_LOG   Diagnostic log filter written to stderr (e.g. \"debug\"; default \"warn\")",
    "",
    s!"Run \"{name} <subcommand> --help\" for more info.",
    ""]

/-- The use of the command `run`. -/
def runUsage (name : String) : String :=
  unlines [
    "Usage:",
    s!"  {name} run [OPTIONS] \"<code>\"",
    s!"  {name} run [OPTIONS] --file <PATH>",
    "",
    "Options:",
    "  --file,   -f <PATH>   Read Brainfuck code from PATH instead of positional \"<code>\"",
    "  --memory, -m <CELLS>  Tape size in cells (default 30000)",
    "  --timeout <MS>        Stop the run after MS milliseconds of wall-clock time",
    "  --help,   -h          Show this help",
    "",
    "Notes:",
    "- Program output is streamed to stdout as it is produced.",
    "- Input (`,`) consumes bytes from stdin as they arrive. When none are pending the",
    "  program waits; it never reads EOF as a value.",
    "- Characters outside of Brainfuck's ><+-.,[] are ignored.",
    "- Ctrl+C stops the run and keeps the output produced so far.",
    "- Moving the pointer off either end of the tape stops the run with an error.",
    "- Settings fall back to JBF_MEMORY_SIZE, JBF_TIMEOUT_MS and then the [engine]",
    "  section of jbf.toml in the user config directory.",
    "",
    "Examples:",
    "- Load Brainfuck code from a file:",
    s!"    {name} run --file ./program.bf",
    "- Echo typed input until interrupted:",
    s!"    {name} run \",[.,]\"",
    ""]

end Brainfuck.CommandLine
