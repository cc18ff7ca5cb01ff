/-! Names and parameter lists that the generated code shares with the packet pipeline. -/

namespace PacketC.Target

def shortParams : String := "packet_descriptor_t* pd, lookup_table_t** tables"

def shortArgs : String := "pd, tables"

def stdArgs : String := "pd, tables, pstate"

/-- The instance that holds the fields of all metadata. -/
def allMetadata : String := "header_instance_all_metadatas"

/-- Stops the build of code that sends a digest when there is no one to receive it. -/
def controlPlaneGuard : String :=
  "#ifdef T4P4S_NO_CONTROL_PLANE\n" ++
    "#error \"Generating digest when T4P4S_NO_CONTROL_PLANE is defined\"\n" ++
    "#endif"

def headerInstance (name : String) : String := "header_instance_" ++ name

/-- A field within its header type. -/
def fieldId (typeName field : String) : String := "field_" ++ typeName ++ "_" ++ field

/-- A field of one header instance. -/
def fieldInstance (header field : String) : String := "field_instance_" ++ header ++ "_" ++ field

def parserStateCall (state : String) : String :=
  "parser_state_" ++ state ++ "(pd, buf, tables, pstate);"

def lockName (controlType : String) : String := "&" ++ controlType ++ "_lock"

end PacketC.Target
