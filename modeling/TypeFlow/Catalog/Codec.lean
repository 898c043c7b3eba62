import TypeFlow.Catalog.Basic
import TypeFlow.Schema.Codec

/-!
# Catalog files as JSON
-/

namespace TypeFlow

/-- Decodes a definition. -/
def CatalogEntry.decoder : Decoder CatalogEntry :=
  .tagged "kind" "DefinitionEntry" [
    ⟨"struct", .fields "struct variant DefinitionEntry::Struct" <|
      CatalogEntry.struct <$> .required "name" .string
        <*> .withDefault "fields" [] (.entries Expr.decoder)⟩,
    ⟨"alias", .fields "struct variant DefinitionEntry::Alias" <|
      CatalogEntry.alias <$> .required "name" .string <*> .required "type" Expr.decoder⟩,
    ⟨"variable", .fields "struct variant DefinitionEntry::Variable" <|
      CatalogEntry.variable <$> .required "name" .string <*> .required "value" Expr.decoder⟩,
    ⟨"function", .fields "struct variant DefinitionEntry::Function" <|
      CatalogEntry.function <$> .required "name" .string
        <*> .withDefault "parameters" [] (.entries Expr.decoder)
        <*> .required "body" Expr.decoder⟩]

namespace CatalogFile

/-- Decodes a catalog file. -/
def decoder : Decoder CatalogFile :=
  Fields.decoder "struct CatalogFile" <|
    CatalogFile.mk <$> .withDefault "definitions" [] (.list CatalogEntry.decoder)
      <*> .withDefault "schemas" [] (.list NodeSchema.decoder)

end CatalogFile
end TypeFlow
