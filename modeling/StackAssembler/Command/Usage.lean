set_option autoImplicit false
set_option relaxedAutoImplicit false

namespace StackAssembler.Command

def programName : String := "specialops"

def usageLines (program : String) : List String :=
  ["Stack-machine assembler",
    "",
    "USAGE:",
    "    " ++ program ++ " <program> [OPTIONS]",
    "",
    "ARGS:",
    "    <program>    Bundled program: echo, keccak, hash-or-echo",
    "",
    "OPTIONS:",
    "    -o, --output <file>     Write the raw bytecode to a file",
    "        --jump-width <n>    Force the byte width of label pushes",
    "        --run               Execute on the reference interpreter",
    "        --calldata <hex>    Input for --run (defaults to empty)",
    "    -h, --help              Print this help message",
    "",
    "EXAMPLES:",
    "    # Print the bytecode of the hashing program",
    "    " ++ program ++ " keccak",
    "",
    "    # Take the hashing branch of the selector program",
    "    " ++ program ++ " hash-or-echo --run --calldata 012aff2a"]

def usage (program : String) : String :=
  String.join ((usageLines program).map (· ++ "\n"))

end StackAssembler.Command
