import CodeGraph.Language.Basic

/-! # The tables of Rust -/

namespace CodeGraph.Language

def rustTables : Tables where
  name := "rust"
  simpleNames := ["identifier", "type_identifier", "field_identifier"]
  references := ["identifier"]
  declarations := ["function_item", "function_signature_item", "struct_item", "enum_item",
    "union_item", "trait_item", "type_item", "const_item", "static_item", "mod_item"]
  callables := ["function_item", "function_signature_item"]
  typed := [("let_declaration", "type"), ("parameter", "type"), ("field_declaration", "type"),
    ("const_item", "type"), ("static_item", "type"), ("function_item", "return_type")]
  typeNames := ["type_identifier"]
  qualifiedTypes := ["scoped_type_identifier"]
  calls := [("call_expression", "function")]
  calleeNameFields := ["field", "name"]

end CodeGraph.Language
