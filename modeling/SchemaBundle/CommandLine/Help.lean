import SchemaBundle.CommandLine.Arguments

/-!
# Texts of the program about itself

The help on each topic, the version, and a hint for arguments that make no command.
-/

namespace SchemaBundle.CommandLine

/-- Lines, each with its end. -/
def lines (texts : List String) : String :=
  texts.foldl (fun all text => all ++ text ++ "\n") ""

/-- How the program is called, by topic. -/
def HelpTopic.usage : HelpTopic → String
  | program => "Usage: swagger-refs [OPTIONS] <COMMAND>"
  | resolve => "Usage: swagger-refs resolve [OPTIONS] <INPUT>"
  | help => "Usage: swagger-refs help [COMMAND]..."

/-- The help on a topic. -/
def HelpTopic.text (topic : HelpTopic) : String :=
  match topic with
  | program => lines [
      "Resolve every $ref of a Swagger/OpenAPI document into one self-contained file",
      "",
      topic.usage,
      "",
      "Commands:",
      "  resolve  Merge all external definitions into the document's registry",
      "  help     Print this message or the help of the given subcommand(s)",
      "",
      "Options:",
      "  -v, --verbose  Enable verbose logging (sets log level to debug)",
      "  -h, --help     Print help",
      "  -V, --version  Print version"]
  | resolve => lines [
      "Merge all external definitions into the document's registry",
      "",
      topic.usage,
      "",
      "Arguments:",
      "  <INPUT>  Input specification (YAML or JSON)",
      "",
      "Options:",
      "  -o, --output <OUTPUT>        Output file (defaults to stdout if not specified)",
      "  -v, --verbose                Enable verbose logging (sets log level to debug)",
      "      --report <REPORT>        Write the resolution report (merged definitions, warnings) "
        ++ "to this file",
      "      --base-uri <BASE_URI>    Base URI of the input "
        ++ "(defaults to the input file's location)",
      "      --max-depth <MAX_DEPTH>  Max nesting depth of the traversal [default: 64]",
      "      --no-reuse-identical     Copy identical external definitions under suffixed names "
        ++ "instead of reusing them",
      "      --strict                 Exit with an error if any reference is left unresolved",
      "      --format <FORMAT>        Output format [default: pretty] "
        ++ "[possible values: pretty, compact]",
      "  -h, --help                   Print help"]
  | help => lines [
      "Print this message or the help of the given subcommand(s)",
      "",
      topic.usage,
      "",
      "Arguments:",
      "  [COMMAND]...  Print help for the subcommand(s)"]

/-- The name and the version of the program. -/
def versionText : String :=
  lines ["swagger-refs 0.1.0"]

/-- The hint for arguments that make no command, without the end of its last line. -/
def misuseHint : String :=
  HelpTopic.program.usage ++ "\n\nFor more information, try '--help'."

end SchemaBundle.CommandLine
