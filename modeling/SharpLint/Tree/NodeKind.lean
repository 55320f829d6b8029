import SharpLint.Tree.TokenKind

/-!
# Kinds of nodes

One kind for each construct of the grammar, with the classes of kinds that the rules ask for.
`NodeKind.ofOperator?` is the kind that an operator token builds.
-/

namespace SharpLint

/-- What a node of the tree is. -/
inductive NodeKind where
  | compilationUnit | usingDirective | namespaceDeclaration | fileScopedNamespaceDeclaration
  | attributeList | modifierList | baseList | classDeclaration | structDeclaration
  | interfaceDeclaration | enumDeclaration | recordDeclaration | recordStructDeclaration
  | delegateDeclaration | enumMemberDeclaration | fieldDeclaration | propertyDeclaration
  | accessorList | accessorDeclaration | methodDeclaration | constructorDeclaration
  | indexerDeclaration | operatorDeclaration | conversionOperatorDeclaration | parameterList
  | bracketedParameterList | parameter | arrowExpressionClause | equalsValueClause
  | variableDeclaration | variableDeclarator | predefinedType | identifierName | qualifiedName
  | genericName | typeArgumentList | arrayType | arrayRankSpecifier | nullableType | block
  | localDeclarationStatement | expressionStatement | returnStatement | ifStatement | elseClause
  | whileStatement | forStatement | forEachStatement | throwStatement | emptyStatement
  | breakStatement | continueStatement | doStatement | switchStatement | switchSection
  | caseSwitchLabel | defaultSwitchLabel | tryStatement | catchClause | catchDeclaration
  | finallyClause | lockStatement | usingStatement | yieldReturnStatement | yieldBreakStatement
  | literalExpression | thisExpression | parenthesizedExpression | castExpression
  | simpleMemberAccessExpression | invocationExpression | elementAccessExpression
  | objectCreationExpression | implicitObjectCreationExpression | arrayCreationExpression
  | conditionalAccessExpression | typeOfExpression | defaultExpression | baseExpression
  | throwExpression | declarationExpression | simpleLambdaExpression
  | parenthesizedLambdaExpression | argumentList | bracketedArgumentList | argument | nameColon
  | prefixUnaryExpression | postfixUnaryExpression | conditionalExpression | addExpression
  | subtractExpression | multiplyExpression | divideExpression | moduloExpression
  | equalsExpression | notEqualsExpression | lessThanExpression | greaterThanExpression
  | lessThanOrEqualExpression | greaterThanOrEqualExpression | logicalAndExpression
  | logicalOrExpression | bitwiseAndExpression | bitwiseOrExpression | exclusiveOrExpression
  | leftShiftExpression | rightShiftExpression | coalesceExpression | isPatternExpression
  | asExpression | switchExpression | switchExpressionArm | whenClause | constantPattern
  | relationalPattern | declarationPattern | typePattern | notPattern | andPattern | orPattern
  | simpleAssignmentExpression | addAssignmentExpression | subtractAssignmentExpression
  | multiplyAssignmentExpression | divideAssignmentExpression | moduloAssignmentExpression
  | andAssignmentExpression | orAssignmentExpression | exclusiveOrAssignmentExpression
  | leftShiftAssignmentExpression | coalesceAssignmentExpression | interpolatedStringExpression
  | interpolatedStringText | interpolation | interpolationAlignmentClause
  | interpolationFormatClause
  deriving DecidableEq, Inhabited

namespace NodeKind

def all : List NodeKind :=
  [.compilationUnit, .usingDirective, .namespaceDeclaration, .fileScopedNamespaceDeclaration,
   .attributeList, .modifierList, .baseList, .classDeclaration, .structDeclaration,
   .interfaceDeclaration, .enumDeclaration, .recordDeclaration, .recordStructDeclaration,
   .delegateDeclaration, .enumMemberDeclaration, .fieldDeclaration, .propertyDeclaration,
   .accessorList, .accessorDeclaration, .methodDeclaration, .constructorDeclaration,
   .indexerDeclaration, .operatorDeclaration, .conversionOperatorDeclaration, .parameterList,
   .bracketedParameterList, .parameter, .arrowExpressionClause, .equalsValueClause,
   .variableDeclaration, .variableDeclarator, .predefinedType, .identifierName, .qualifiedName,
   .genericName, .typeArgumentList, .arrayType, .arrayRankSpecifier, .nullableType, .block,
   .localDeclarationStatement, .expressionStatement, .returnStatement, .ifStatement, .elseClause,
   .whileStatement, .forStatement, .forEachStatement, .throwStatement, .emptyStatement,
   .breakStatement, .continueStatement, .doStatement, .switchStatement, .switchSection,
   .caseSwitchLabel, .defaultSwitchLabel, .tryStatement, .catchClause, .catchDeclaration,
   .finallyClause, .lockStatement, .usingStatement, .yieldReturnStatement, .yieldBreakStatement,
   .literalExpression, .thisExpression, .parenthesizedExpression, .castExpression,
   .simpleMemberAccessExpression, .invocationExpression, .elementAccessExpression,
   .objectCreationExpression, .implicitObjectCreationExpression, .arrayCreationExpression,
   .conditionalAccessExpression, .typeOfExpression, .defaultExpression, .baseExpression,
   .throwExpression, .declarationExpression, .simpleLambdaExpression,
   .parenthesizedLambdaExpression, .argumentList, .bracketedArgumentList, .argument, .nameColon,
   .prefixUnaryExpression, .postfixUnaryExpression, .conditionalExpression, .addExpression,
   .subtractExpression, .multiplyExpression, .divideExpression, .moduloExpression,
   .equalsExpression, .notEqualsExpression, .lessThanExpression, .greaterThanExpression,
   .lessThanOrEqualExpression, .greaterThanOrEqualExpression, .logicalAndExpression,
   .logicalOrExpression, .bitwiseAndExpression, .bitwiseOrExpression, .exclusiveOrExpression,
   .leftShiftExpression, .rightShiftExpression, .coalesceExpression, .isPatternExpression,
   .asExpression, .switchExpression, .switchExpressionArm, .whenClause, .constantPattern,
   .relationalPattern, .declarationPattern, .typePattern, .notPattern, .andPattern, .orPattern,
   .simpleAssignmentExpression, .addAssignmentExpression, .subtractAssignmentExpression,
   .multiplyAssignmentExpression, .divideAssignmentExpression, .moduloAssignmentExpression,
   .andAssignmentExpression, .orAssignmentExpression, .exclusiveOrAssignmentExpression,
   .leftShiftAssignmentExpression, .coalesceAssignmentExpression, .interpolatedStringExpression,
   .interpolatedStringText, .interpolation, .interpolationAlignmentClause,
   .interpolationFormatClause]

def name : NodeKind → String
  | .compilationUnit => "CompilationUnit"
  | .usingDirective => "UsingDirective"
  | .namespaceDeclaration => "NamespaceDeclaration"
  | .fileScopedNamespaceDeclaration => "FileScopedNamespaceDeclaration"
  | .attributeList => "AttributeList"
  | .modifierList => "ModifierList"
  | .baseList => "BaseList"
  | .classDeclaration => "ClassDeclaration"
  | .structDeclaration => "StructDeclaration"
  | .interfaceDeclaration => "InterfaceDeclaration"
  | .enumDeclaration => "EnumDeclaration"
  | .recordDeclaration => "RecordDeclaration"
  | .recordStructDeclaration => "RecordStructDeclaration"
  | .delegateDeclaration => "DelegateDeclaration"
  | .enumMemberDeclaration => "EnumMemberDeclaration"
  | .fieldDeclaration => "FieldDeclaration"
  | .propertyDeclaration => "PropertyDeclaration"
  | .accessorList => "AccessorList"
  | .accessorDeclaration => "AccessorDeclaration"
  | .methodDeclaration => "MethodDeclaration"
  | .constructorDeclaration => "ConstructorDeclaration"
  | .indexerDeclaration => "IndexerDeclaration"
  | .operatorDeclaration => "OperatorDeclaration"
  | .conversionOperatorDeclaration => "ConversionOperatorDeclaration"
  | .parameterList => "ParameterList"
  | .bracketedParameterList => "BracketedParameterList"
  | .parameter => "Parameter"
  | .arrowExpressionClause => "ArrowExpressionClause"
  | .equalsValueClause => "EqualsValueClause"
  | .variableDeclaration => "VariableDeclaration"
  | .variableDeclarator => "VariableDeclarator"
  | .predefinedType => "PredefinedType"
  | .identifierName => "IdentifierName"
  | .qualifiedName => "QualifiedName"
  | .genericName => "GenericName"
  | .typeArgumentList => "TypeArgumentList"
  | .arrayType => "ArrayType"
  | .arrayRankSpecifier => "ArrayRankSpecifier"
  | .nullableType => "NullableType"
  | .block => "Block"
  | .localDeclarationStatement => "LocalDeclarationStatement"
  | .expressionStatement => "ExpressionStatement"
  | .returnStatement => "ReturnStatement"
  | .ifStatement => "IfStatement"
  | .elseClause => "ElseClause"
  | .whileStatement => "WhileStatement"
  | .forStatement => "ForStatement"
  | .forEachStatement => "ForEachStatement"
  | .throwStatement => "ThrowStatement"
  | .emptyStatement => "EmptyStatement"
  | .breakStatement => "BreakStatement"
  | .continueStatement => "ContinueStatement"
  | .doStatement => "DoStatement"
  | .switchStatement => "SwitchStatement"
  | .switchSection => "SwitchSection"
  | .caseSwitchLabel => "CaseSwitchLabel"
  | .defaultSwitchLabel => "DefaultSwitchLabel"
  | .tryStatement => "TryStatement"
  | .catchClause => "CatchClause"
  | .catchDeclaration => "CatchDeclaration"
  | .finallyClause => "FinallyClause"
  | .lockStatement => "LockStatement"
  | .usingStatement => "UsingStatement"
  | .yieldReturnStatement => "YieldReturnStatement"
  | .yieldBreakStatement => "YieldBreakStatement"
  | .literalExpression => "LiteralExpression"
  | .thisExpression => "ThisExpression"
  | .parenthesizedExpression => "ParenthesizedExpression"
  | .castExpression => "CastExpression"
  | .simpleMemberAccessExpression => "SimpleMemberAccessExpression"
  | .invocationExpression => "InvocationExpression"
  | .elementAccessExpression => "ElementAccessExpression"
  | .objectCreationExpression => "ObjectCreationExpression"
  | .implicitObjectCreationExpression => "ImplicitObjectCreationExpression"
  | .arrayCreationExpression => "ArrayCreationExpression"
  | .conditionalAccessExpression => "ConditionalAccessExpression"
  | .typeOfExpression => "TypeOfExpression"
  | .defaultExpression => "DefaultExpression"
  | .baseExpression => "BaseExpression"
  | .throwExpression => "ThrowExpression"
  | .declarationExpression => "DeclarationExpression"
  | .simpleLambdaExpression => "SimpleLambdaExpression"
  | .parenthesizedLambdaExpression => "ParenthesizedLambdaExpression"
  | .argumentList => "ArgumentList"
  | .bracketedArgumentList => "BracketedArgumentList"
  | .argument => "Argument"
  | .nameColon => "NameColon"
  | .prefixUnaryExpression => "PrefixUnaryExpression"
  | .postfixUnaryExpression => "PostfixUnaryExpression"
  | .conditionalExpression => "ConditionalExpression"
  | .addExpression => "AddExpression"
  | .subtractExpression => "SubtractExpression"
  | .multiplyExpression => "MultiplyExpression"
  | .divideExpression => "DivideExpression"
  | .moduloExpression => "ModuloExpression"
  | .equalsExpression => "EqualsExpression"
  | .notEqualsExpression => "NotEqualsExpression"
  | .lessThanExpression => "LessThanExpression"
  | .greaterThanExpression => "GreaterThanExpression"
  | .lessThanOrEqualExpression => "LessThanOrEqualExpression"
  | .greaterThanOrEqualExpression => "GreaterThanOrEqualExpression"
  | .logicalAndExpression => "LogicalAndExpression"
  | .logicalOrExpression => "LogicalOrExpression"
  | .bitwiseAndExpression => "BitwiseAndExpression"
  | .bitwiseOrExpression => "BitwiseOrExpression"
  | .exclusiveOrExpression => "ExclusiveOrExpression"
  | .leftShiftExpression => "LeftShiftExpression"
  | .rightShiftExpression => "RightShiftExpression"
  | .coalesceExpression => "CoalesceExpression"
  | .isPatternExpression => "IsPatternExpression"
  | .asExpression => "AsExpression"
  | .switchExpression => "SwitchExpression"
  | .switchExpressionArm => "SwitchExpressionArm"
  | .whenClause => "WhenClause"
  | .constantPattern => "ConstantPattern"
  | .relationalPattern => "RelationalPattern"
  | .declarationPattern => "DeclarationPattern"
  | .typePattern => "TypePattern"
  | .notPattern => "NotPattern"
  | .andPattern => "AndPattern"
  | .orPattern => "OrPattern"
  | .simpleAssignmentExpression => "SimpleAssignmentExpression"
  | .addAssignmentExpression => "AddAssignmentExpression"
  | .subtractAssignmentExpression => "SubtractAssignmentExpression"
  | .multiplyAssignmentExpression => "MultiplyAssignmentExpression"
  | .divideAssignmentExpression => "DivideAssignmentExpression"
  | .moduloAssignmentExpression => "ModuloAssignmentExpression"
  | .andAssignmentExpression => "AndAssignmentExpression"
  | .orAssignmentExpression => "OrAssignmentExpression"
  | .exclusiveOrAssignmentExpression => "ExclusiveOrAssignmentExpression"
  | .leftShiftAssignmentExpression => "LeftShiftAssignmentExpression"
  | .coalesceAssignmentExpression => "CoalesceAssignmentExpression"
  | .interpolatedStringExpression => "InterpolatedStringExpression"
  | .interpolatedStringText => "InterpolatedStringText"
  | .interpolation => "Interpolation"
  | .interpolationAlignmentClause => "InterpolationAlignmentClause"
  | .interpolationFormatClause => "InterpolationFormatClause"

def isAssignment : NodeKind → Bool
  | .simpleAssignmentExpression | .addAssignmentExpression | .subtractAssignmentExpression
  | .multiplyAssignmentExpression | .divideAssignmentExpression | .moduloAssignmentExpression
  | .andAssignmentExpression | .orAssignmentExpression | .exclusiveOrAssignmentExpression
  | .leftShiftAssignmentExpression | .coalesceAssignmentExpression => true
  | _ => false

/-- Two-operand operators, assignments among them. -/
def isBinary : NodeKind → Bool
  | .addExpression | .subtractExpression | .multiplyExpression | .divideExpression
  | .moduloExpression | .equalsExpression | .notEqualsExpression | .lessThanExpression
  | .greaterThanExpression | .lessThanOrEqualExpression | .greaterThanOrEqualExpression
  | .logicalAndExpression | .logicalOrExpression | .bitwiseAndExpression | .bitwiseOrExpression
  | .exclusiveOrExpression | .leftShiftExpression | .rightShiftExpression | .coalesceExpression => true
  | k => k.isAssignment

/-- Lambdas with one bare parameter or a parameter list. -/
def isLambda : NodeKind → Bool
  | .simpleLambdaExpression | .parenthesizedLambdaExpression => true
  | _ => false

/-- Comparisons of two operands. -/
def isComparison : NodeKind → Bool
  | .equalsExpression | .notEqualsExpression | .lessThanExpression | .greaterThanExpression
  | .lessThanOrEqualExpression | .greaterThanOrEqualExpression => true
  | _ => false

/-- Type declarations, delegates among them. -/
def isTypeDeclaration : NodeKind → Bool
  | .classDeclaration | .structDeclaration | .interfaceDeclaration | .enumDeclaration
  | .recordDeclaration | .recordStructDeclaration | .delegateDeclaration => true
  | _ => false

def isNamespaceDeclaration : NodeKind → Bool
  | .namespaceDeclaration | .fileScopedNamespaceDeclaration => true
  | _ => false

/-- Kinds that can stand where a type is expected. Names of values share some of them. -/
def isTypeForm : NodeKind → Bool
  | .predefinedType | .identifierName | .qualifiedName | .genericName | .arrayType
  | .nullableType => true
  | _ => false

/-- The kind of the binary node or assignment that an operator token builds. -/
def ofOperator? : TokenKind → Option NodeKind
  | .plus => some .addExpression
  | .minus => some .subtractExpression
  | .star => some .multiplyExpression
  | .slash => some .divideExpression
  | .percent => some .moduloExpression
  | .eqEq => some .equalsExpression
  | .bangEq => some .notEqualsExpression
  | .lt => some .lessThanExpression
  | .gt => some .greaterThanExpression
  | .ltEq => some .lessThanOrEqualExpression
  | .gtEq => some .greaterThanOrEqualExpression
  | .ampAmp => some .logicalAndExpression
  | .pipePipe => some .logicalOrExpression
  | .amp => some .bitwiseAndExpression
  | .pipe => some .bitwiseOrExpression
  | .caret => some .exclusiveOrExpression
  | .ltLt => some .leftShiftExpression
  | .questionQuestion => some .coalesceExpression
  | .eq => some .simpleAssignmentExpression
  | .plusEq => some .addAssignmentExpression
  | .minusEq => some .subtractAssignmentExpression
  | .starEq => some .multiplyAssignmentExpression
  | .slashEq => some .divideAssignmentExpression
  | .percentEq => some .moduloAssignmentExpression
  | .ampEq => some .andAssignmentExpression
  | .pipeEq => some .orAssignmentExpression
  | .caretEq => some .exclusiveOrAssignmentExpression
  | .ltLtEq => some .leftShiftAssignmentExpression
  | .questionQuestionEq => some .coalesceAssignmentExpression
  | _ => none

end NodeKind

end SharpLint
