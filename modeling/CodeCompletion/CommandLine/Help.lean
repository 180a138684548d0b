import CodeCompletion.CommandLine.Arguments

/-! What the command line says about itself. -/
namespace CodeCompletion.CommandLine

def versionText : String := "augur 0.1.0\n"

def generalHelp : List String :=
  ["Scope-aware JavaScript code completion",
    "",
    "Usage: augur [OPTIONS] <COMMAND>",
    "",
    "Commands:",
    "  complete  List ranked completions at a caret",
    "  context   Show what is being completed at a caret",
    "  scope     Dump the symbol table built for a caret",
    "  help      Print this message or the help of the given subcommand(s)",
    "",
    "Options:",
    "      --output <OUTPUT>  Output format (text or json) [default: text] " ++
      "[possible values: text, json]",
    "      --quiet            Suppress non-essential output",
    "      --config <CONFIG>  Engine configuration file (TOML)",
    "  -h, --help             Print help",
    "  -V, --version          Print version"]

def commandTitle : CommandName → String
  | .complete => "List ranked completions at a caret"
  | .context => "Show what is being completed at a caret"
  | .scope => "Dump the symbol table built for a caret"

def commandHelp (command : CommandName) : List String :=
  let own :=
    match command with
    | .complete =>
      ["      --no-sandbox       Do not consult the built-in ECMAScript globals",
        "      --no-keywords      Do not offer keywords"]
    | _ => []
  [commandTitle command,
    "",
    "Usage: augur " ++ command.text ++
      " [OPTIONS] --line <LINE> --column <COLUMN> <FILE>",
    "",
    "Arguments:",
    "  <FILE>  Path to the JavaScript source file",
    "",
    "Options:",
    "      --line <LINE>      Line of the caret (1-based)",
    "      --output <OUTPUT>  Output format (text or json) [default: text] " ++
      "[possible values: text, json]",
    "      --column <COLUMN>  Column of the caret in characters (1-based)",
    "      --quiet            Suppress non-essential output",
    "      --config <CONFIG>  Engine configuration file (TOML)"]
    ++ own ++ ["  -h, --help             Print help"]

def helpOnHelp : List String :=
  ["Print this message or the help of the given subcommand(s)",
    "",
    "Usage: augur help [COMMAND]...",
    "",
    "Arguments:",
    "  [COMMAND]...  Print help for the subcommand(s)"]

def helpLines : HelpTopic → List String
  | .program => generalHelp
  | .command name => commandHelp name
  | .help => helpOnHelp

end CodeCompletion.CommandLine
