import LinkOrder.Markup.Error

namespace LinkOrder.UnitFile

inductive Error
  | markup (e : Markup.Error)
  | invalidUtf8 (e : Text.Utf8Error)
  | missingRoot
  | unexpectedRoot (element : String)
  | unnamedUnit
  | nestedUnit (name : String)
  | refWithoutId (element : String)
  | orphanRef (element id : String)
  | importWithoutPath
  | nestedImport (path : String)
  | invalidNumber (key value : String)
  | unexpectedEof
  deriving BEq, Repr

namespace Error

def message : Error → String
  | markup e => e.message
  | invalidUtf8 e => e.message
  | missingRoot => "missing `units` root element"
  | unexpectedRoot element => s!"expected `units` root element, found `{element}`"
  | unnamedUnit => "`unit` is missing `@name`"
  | nestedUnit name => s!"unit `{name}` must not appear within another unit"
  | refWithoutId element => s!"`{element}` is missing `@id`"
  | orphanRef element id => s!"`{element}` of `{id}` must appear within a unit"
  | importWithoutPath => "`import` is missing `@path`"
  | nestedImport path => s!"import of `{path}` must not appear within a unit"
  | invalidNumber key value => s!"invalid number `{value}` for `@{key}`"
  | unexpectedEof => "unexpected end of file within unit"

def causes : Error → List String
  | markup e => e.message :: e.message :: e.causes
  | invalidUtf8 e => [e.message]
  | _ => []

end Error

end LinkOrder.UnitFile
