import QtMigration.Text.Basic

/-!
# Catalogue/Classes — the modules of the new library and their classes

One list of class names for each module, and `classesOf?`, which finds the list by the module's
name.
-/

namespace QtMigration

namespace Catalogue

def axContainer : List Text :=
  ["QAxBase", "QAxObject", "QAxWidget"].map String.toList

def core : List Text :=
  ["QAbstractAnimation", "QAbstractEventDispatcher", "QAbstractItemModel", "QAbstractListModel",
   "QAbstractNativeEventFilter", "QAbstractProxyModel", "QAbstractState", "QAbstractTableModel",
   "QAbstractTransition", "QAnimationGroup", "QBasicTimer", "QBitArray", "QBuffer", "QByteArray",
   "QByteArrayMatcher", "QChildEvent", "QCoreApplication", "QCryptographicHash", "QDataStream",
   "QDate", "QDateTime", "QDir", "QDirIterator", "QDynamicPropertyChangeEvent", "QEasingCurve",
   "QElapsedTimer", "QEvent", "QEventLoop", "QEventLoopLocker", "QEventTransition", "QFile",
   "QFileDevice", "QFileInfo", "QFileSystemWatcher", "QFinalState", "QGenericArgument",
   "QGenericReturnArgument", "QHistoryState", "QIODevice", "QIdentityProxyModel", "QItemSelection",
   "QItemSelectionModel", "QItemSelectionRange", "QLibrary", "QLibraryInfo", "QLine", "QLineF",
   "QLocale", "QMargins", "QMessageLogContext", "QMessageLogger", "QMetaClassInfo", "QMetaEnum",
   "QMetaMethod", "QMetaObject", "QMetaProperty", "QMetaType", "QMimeData", "QMimeDatabase",
   "QMimeType", "QModelIndex", "QMutex", "QMutexLocker", "QObject", "QObjectCleanupHandler",
   "QParallelAnimationGroup", "QPauseAnimation", "QPersistentModelIndex", "QPluginLoader", "QPoint",
   "QPointF", "QProcess", "QProcessEnvironment", "QPropertyAnimation", "QReadLocker",
   "QReadWriteLock", "QRect", "QRectF", "QRegExp", "QRegularExpression", "QRegularExpressionMatch",
   "QRegularExpressionMatchIterator", "QResource", "QRunnable", "QSemaphore",
   "QSequentialAnimationGroup", "QSettings", "QSharedMemory", "QSignalMapper", "QSignalTransition",
   "QSize", "QSizeF", "QSocketNotifier", "QSortFilterProxyModel", "QStandardPaths", "QState",
   "QStateMachine", "QStringListModel", "QSysInfo", "QSystemSemaphore", "QTemporaryDir",
   "QTemporaryFile", "QTextBoundaryFinder", "QTextCodec", "QTextDecoder", "QTextEncoder",
   "QTextStream", "QTextStreamManipulator", "QThread", "QThreadPool", "QTime", "QTimeLine",
   "QTimer", "QTimerEvent", "QTranslator", "QUrl", "QUrlQuery", "QUuid", "QVariant",
   "QVariantAnimation", "QWaitCondition", "QWriteLocker", "QXmlStreamAttribute",
   "QXmlStreamAttributes", "QXmlStreamEntityDeclaration", "QXmlStreamEntityResolver",
   "QXmlStreamNamespaceDeclaration", "QXmlStreamNotationDeclaration", "QXmlStreamReader",
   "QXmlStreamWriter", "Qt"].map String.toList

def dBus : List Text :=
  ["QDBus", "QDBusAbstractAdaptor", "QDBusAbstractInterface", "QDBusArgument", "QDBusConnection",
   "QDBusConnectionInterface", "QDBusError", "QDBusInterface", "QDBusMessage", "QDBusObjectPath",
   "QDBusPendingCall", "QDBusPendingCallWatcher", "QDBusPendingReply", "QDBusReply",
   "QDBusServiceWatcher", "QDBusSignature", "QDBusUnixFileDescriptor", "QDBusVariant"].map String.toList

def designer : List Text :=
  ["QAbstractExtensionFactory", "QAbstractExtensionManager", "QAbstractFormBuilder",
   "QDesignerActionEditorInterface", "QDesignerContainerExtension",
   "QDesignerCustomWidgetCollectionInterface", "QDesignerCustomWidgetInterface",
   "QDesignerFormEditorInterface", "QDesignerFormWindowCursorInterface",
   "QDesignerFormWindowInterface", "QDesignerFormWindowManagerInterface",
   "QDesignerMemberSheetExtension", "QDesignerObjectInspectorInterface",
   "QDesignerPropertyEditorInterface", "QDesignerPropertySheetExtension",
   "QDesignerTaskMenuExtension", "QDesignerWidgetBoxInterface", "QExtensionFactory",
   "QExtensionManager", "QFormBuilder"].map String.toList

def gui : List Text :=
  ["QAbstractTextDocumentLayout", "QActionEvent", "QBackingStore", "QBitmap", "QBrush",
   "QClipboard", "QCloseEvent", "QColor", "QConicalGradient", "QContextMenuEvent", "QCursor",
   "QDesktopServices", "QDoubleValidator", "QDrag", "QDragEnterEvent", "QDragLeaveEvent",
   "QDragMoveEvent", "QDropEvent", "QEnterEvent", "QExposeEvent", "QFileOpenEvent", "QFocusEvent",
   "QFont", "QFontDatabase", "QFontInfo", "QFontMetrics", "QFontMetricsF", "QGlyphRun", "QGradient",
   "QGuiApplication", "QHelpEvent", "QHideEvent", "QHoverEvent", "QIcon", "QIconDragEvent",
   "QIconEngine", "QImage", "QImageIOHandler", "QImageReader", "QImageWriter", "QInputEvent",
   "QInputMethod", "QInputMethodEvent", "QInputMethodQueryEvent", "QIntValidator", "QKeyEvent",
   "QKeySequence", "QLinearGradient", "QMatrix2x2", "QMatrix2x3", "QMatrix2x4", "QMatrix3x2",
   "QMatrix3x3", "QMatrix3x4", "QMatrix4x2", "QMatrix4x3", "QMatrix4x4", "QMouseEvent",
   "QMoveEvent", "QMovie", "QOpenGLContext", "QOpenGLContextGroup", "QPagedPaintDevice",
   "QPaintDevice", "QPaintEngine", "QPaintEngineState", "QPaintEvent", "QPainter", "QPainterPath",
   "QPainterPathStroker", "QPalette", "QPdfWriter", "QPen", "QPicture", "QPictureIO", "QPixmap",
   "QPixmapCache", "QPolygon", "QPolygonF", "QPyTextObject", "QQuaternion", "QRadialGradient",
   "QRawFont", "QRegExpValidator", "QRegion", "QResizeEvent", "QScreen", "QScrollEvent",
   "QScrollPrepareEvent", "QSessionManager", "QShortcutEvent", "QShowEvent", "QStandardItem",
   "QStandardItemModel", "QStaticText", "QStatusTipEvent", "QStyleHints", "QSurface",
   "QSurfaceFormat", "QSyntaxHighlighter", "QTabletEvent", "QTextBlock", "QTextBlockFormat",
   "QTextBlockGroup", "QTextBlockUserData", "QTextCharFormat", "QTextCursor", "QTextDocument",
   "QTextDocumentFragment", "QTextDocumentWriter", "QTextFormat", "QTextFragment", "QTextFrame",
   "QTextFrameFormat", "QTextImageFormat", "QTextInlineObject", "QTextItem", "QTextLayout",
   "QTextLength", "QTextLine", "QTextList", "QTextListFormat", "QTextObject",
   "QTextObjectInterface", "QTextOption", "QTextTable", "QTextTableCell", "QTextTableCellFormat",
   "QTextTableFormat", "QTouchDevice", "QTouchEvent", "QTransform", "QValidator", "QVector2D",
   "QVector3D", "QVector4D", "QWhatsThisClickedEvent", "QWheelEvent", "QWindow",
   "QWindowStateChangeEvent"].map String.toList

def help : List Text :=
  ["QHelpContentItem", "QHelpContentModel", "QHelpContentWidget", "QHelpEngine", "QHelpEngineCore",
   "QHelpIndexModel", "QHelpIndexWidget", "QHelpSearchEngine", "QHelpSearchQuery",
   "QHelpSearchQueryWidget", "QHelpSearchResultWidget"].map String.toList

def multimedia : List Text :=
  ["QAbstractVideoBuffer", "QAbstractVideoSurface", "QAudio", "QAudioDeviceInfo", "QAudioFormat",
   "QAudioInput", "QAudioOutput", "QVideoFrame", "QVideoSurfaceFormat"].map String.toList

def network : List Text :=
  ["QAbstractNetworkCache", "QAbstractSocket", "QAuthenticator", "QDnsDomainNameRecord",
   "QDnsHostAddressRecord", "QDnsLookup", "QDnsMailExchangeRecord", "QDnsServiceRecord",
   "QDnsTextRecord", "QHostAddress", "QHostInfo", "QHttpMultiPart", "QHttpPart", "QLocalServer",
   "QLocalSocket", "QNetworkAccessManager", "QNetworkAddressEntry", "QNetworkCacheMetaData",
   "QNetworkConfiguration", "QNetworkConfigurationManager", "QNetworkCookie", "QNetworkCookieJar",
   "QNetworkDiskCache", "QNetworkInterface", "QNetworkProxy", "QNetworkProxyFactory",
   "QNetworkProxyQuery", "QNetworkReply", "QNetworkRequest", "QNetworkSession", "QSsl",
   "QSslCertificate", "QSslCertificateExtension", "QSslCipher", "QSslConfiguration", "QSslError",
   "QSslKey", "QSslSocket", "QTcpServer", "QTcpSocket", "QUdpSocket"].map String.toList

def openGL : List Text :=
  ["QGL", "QGLContext", "QGLFormat", "QGLWidget"].map String.toList

def printSupport : List Text :=
  ["QAbstractPrintDialog", "QPageSetupDialog", "QPrintDialog", "QPrintEngine", "QPrinter",
   "QPrinterInfo", "QPrintPreviewDialog", "QPrintPreviewWidget"].map String.toList

def sql : List Text :=
  ["QSql", "QSqlDatabase", "QSqlDriver", "QSqlDriverCreatorBase", "QSqlError", "QSqlField",
   "QSqlIndex", "QSqlQuery", "QSqlQueryModel", "QSqlRecord", "QSqlRelation",
   "QSqlRelationalDelegate", "QSqlRelationalTableModel", "QSqlResult", "QSqlTableModel"].map String.toList

def svg : List Text :=
  ["QGraphicsSvgItem", "QSvgGenerator", "QSvgRenderer", "QSvgWidget"].map String.toList

def test : List Text :=
  ["QSignalSpy", "QTest"].map String.toList

def webKit : List Text :=
  ["QWebDatabase", "QWebElement", "QWebElementCollection", "QWebHistory", "QWebHistoryInterface",
   "QWebHistoryItem", "QWebPluginFactory", "QWebSecurityOrigin", "QWebSettings"].map String.toList

def webKitWidgets : List Text :=
  ["QGraphicsWebView", "QWebFrame", "QWebHitTestResult", "QWebInspector", "QWebPage", "QWebView"].map String.toList

def widgets : List Text :=
  ["QAbstractButton", "QAbstractGraphicsShapeItem", "QAbstractItemDelegate", "QAbstractItemView",
   "QAbstractScrollArea", "QAbstractSlider", "QAbstractSpinBox", "QAction", "QActionGroup",
   "QApplication", "qApp", "QApplication.instance()", "QBoxLayout", "QButtonGroup",
   "QCalendarWidget", "QCheckBox", "QColorDialog", "QColumnView", "QComboBox", "QCommandLinkButton",
   "QCommonStyle", "QCompleter", "QDataWidgetMapper", "QDateEdit", "QDateTimeEdit",
   "QDesktopWidget", "QDial", "QDialog", "QDialogButtonBox", "QDirModel", "QDockWidget",
   "QDoubleSpinBox", "QErrorMessage", "QFileDialog", "QFileIconProvider", "QFileSystemModel",
   "QFocusFrame", "QFontComboBox", "QFontDialog", "QFormLayout", "QFrame", "QGesture",
   "QGestureEvent", "QGestureRecognizer", "QGraphicsAnchor", "QGraphicsAnchorLayout",
   "QGraphicsBlurEffect", "QGraphicsColorizeEffect", "QGraphicsDropShadowEffect", "QGraphicsEffect",
   "QGraphicsEllipseItem", "QGraphicsGridLayout", "QGraphicsItem", "QGraphicsItemGroup",
   "QGraphicsLayout", "QGraphicsLayoutItem", "QGraphicsLineItem", "QGraphicsLinearLayout",
   "QGraphicsObject", "QGraphicsOpacityEffect", "QGraphicsPathItem", "QGraphicsPixmapItem",
   "QGraphicsPolygonItem", "QGraphicsProxyWidget", "QGraphicsRectItem", "QGraphicsRotation",
   "QGraphicsScale", "QGraphicsScene", "QGraphicsSceneContextMenuEvent",
   "QGraphicsSceneDragDropEvent", "QGraphicsSceneEvent", "QGraphicsSceneHelpEvent",
   "QGraphicsSceneHoverEvent", "QGraphicsSceneMouseEvent", "QGraphicsSceneMoveEvent",
   "QGraphicsSceneResizeEvent", "QGraphicsSceneWheelEvent", "QGraphicsSimpleTextItem",
   "QGraphicsTextItem", "QGraphicsTransform", "QGraphicsView", "QGraphicsWidget", "QGridLayout",
   "QGroupBox", "QHBoxLayout", "QHeaderView", "QInputDialog", "QItemDelegate",
   "QItemEditorCreatorBase", "QItemEditorFactory", "QKeyEventTransition", "QLCDNumber", "QLabel",
   "QLayout", "QLayoutItem", "QLineEdit", "QListView", "QListWidget", "QListWidgetItem",
   "QMainWindow", "QMdiArea", "QMdiSubWindow", "QMenu", "QMenuBar", "QMessageBox",
   "QMouseEventTransition", "QPanGesture", "QPinchGesture", "QPlainTextDocumentLayout",
   "QPlainTextEdit", "QProgressBar", "QProgressDialog", "QPushButton", "QRadioButton",
   "QRubberBand", "QScrollArea", "QScrollBar", "QScroller", "QScrollerProperties", "QShortcut",
   "QSizeGrip", "QSizePolicy", "QSlider", "QSpacerItem", "QSpinBox", "QSplashScreen", "QSplitter",
   "QSplitterHandle", "QStackedLayout", "QStackedWidget", "QStatusBar", "QStyle", "QStyleFactory",
   "QStyleHintReturn", "QStyleHintReturnMask", "QStyleHintReturnVariant", "QStyleOption",
   "QStyleOptionButton", "QStyleOptionComboBox", "QStyleOptionComplex", "QStyleOptionDockWidget",
   "QStyleOptionFocusRect", "QStyleOptionFrame", "QStyleOptionGraphicsItem", "QStyleOptionGroupBox",
   "QStyleOptionHeader", "QStyleOptionMenuItem", "QStyleOptionProgressBar",
   "QStyleOptionRubberBand", "QStyleOptionSizeGrip", "QStyleOptionSlider", "QStyleOptionSpinBox",
   "QStyleOptionTab", "QStyleOptionTabBarBase", "QStyleOptionTabWidgetFrame",
   "QStyleOptionTitleBar", "QStyleOptionToolBar", "QStyleOptionToolBox", "QStyleOptionToolButton",
   "QStyleOptionViewItem", "QStylePainter", "QStyledItemDelegate", "QSwipeGesture",
   "QSystemTrayIcon", "QTabBar", "QTabWidget", "QTableView", "QTableWidget", "QTableWidgetItem",
   "QTableWidgetSelectionRange", "QTapAndHoldGesture", "QTapGesture", "QTextBrowser", "QTextEdit",
   "QTimeEdit", "QToolBar", "QToolBox", "QToolButton", "QToolTip", "QTreeView", "QTreeWidget",
   "QTreeWidgetItem", "QTreeWidgetItemIterator", "QUndoCommand", "QUndoGroup", "QUndoStack",
   "QUndoView", "QVBoxLayout", "QWhatsThis", "QWidget", "QWidgetAction", "QWidgetItem", "QWizard",
   "QWizardPage"].map String.toList

def xmlPatterns : List Text :=
  ["QAbstractMessageHandler", "QAbstractUriResolver", "QAbstractXmlNodeModel",
   "QAbstractXmlReceiver", "QSimpleXmlNodeModel", "QSourceLocation", "QXmlFormatter", "QXmlItem",
   "QXmlName", "QXmlNamePool", "QXmlNodeModelIndex", "QXmlQuery", "QXmlResultItems", "QXmlSchema",
   "QXmlSchemaValidator", "QXmlSerializer"].map String.toList

def modules : List (Text × List Text) :=
  [("QAxContainer", axContainer), ("QtCore", core), ("QtDBus", dBus), ("QtDesigner", designer),
   ("QtGui", gui), ("QtHelp", help), ("QtMultimedia", multimedia), ("QtNetwork", network),
   ("QtOpenGL", openGL), ("QtPrintSupport", printSupport), ("QtSql", sql), ("QtSvg", svg),
   ("QtTest", test), ("QtWebKit", webKit), ("QtWebKitWidgets", webKitWidgets),
   ("QtWidgets", widgets), ("QtXmlPatterns", xmlPatterns)]

/-- The classes of the module with this name. -/
def classesOf? (module : Text) : Option (List Text) :=
  (modules.find? fun m => m.1 == module).map (·.2)

end Catalogue

end QtMigration
